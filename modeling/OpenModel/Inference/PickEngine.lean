import OpenModel.Inference.Pool
import OpenModel.Lib.OrderedDict
import Mathlib.Algebra.Order.Ring.Rat
import Mathlib.Data.List.MinMax
import Mathlib.Data.List.Rotate

/-!
# Engine selection

`EnginePool._pick_engine`: a session goes to the engine that it is pinned to while the pin is
live, and otherwise to the least busy engine or to the next one in turn, where it is pinned.
The call does not suspend, so it sees one snapshot of the engines.

## Main results

- `PickState.selects_of_pick`: what one call does
- `PickState.balanced_eq`: the choices in turn, over any run of calls
- `PickState.honoured_of_staysLive`: a session stays on its engine
-/

namespace OpenModel.Inference

/-- `_lb_strategy`; every other string is `round_robin`. -/
inductive LbStrategy
  | leastBusy
  | roundRobin
  deriving DecidableEq, Repr

/-- The engine of a session, until a time. -/
structure Pin where
  engine : Nat
  expiry : ℚ
  deriving DecidableEq

/-- What `_pick_engine` reads and writes of the pool. -/
structure PickState where
  lbStrategy : LbStrategy
  rrIndex : Nat := 0
  /-- `_engine_sessions` -/
  sessions : OrderedDict String Pin := {}

/-- What it sees of an engine. -/
structure EngineView where
  available : Bool
  activeRequests : Nat
  deriving DecidableEq, Repr

/-- A call, and what it finds. -/
structure PickCall where
  sessionKey : Option String
  engines : List EngineView
  now : ℚ

inductive Choice
  /-- the engine of a live pin -/
  | honoured (engine : Nat)
  | balanced (engine : Nat)
  deriving DecidableEq, Repr

def Choice.engine : Choice → Nat
  | honoured engine | balanced engine => engine

/-- The engine, if it was chosen by the strategy. -/
def Choice.turn : Choice → Option Nat
  | honoured _ => none
  | balanced engine => some engine

/-- `_engine_session_ttl` -/
def sessionTtl : ℚ := 600

/-- `_engine_affinity_slack` -/
def affinitySlack : Nat := 2

namespace PickCall

/-- The session; an empty key is none. -/
def session (c : PickCall) : Option String := c.sessionKey.filter fun key => key ≠ ""

def available (c : PickCall) : List Nat :=
  (List.range c.engines.length).filter fun i => c.engines[i]?.any EngineView.available

def load (c : PickCall) (i : Nat) : Nat := (c.engines[i]?.map EngineView.activeRequests).getD 0

/-- The load of the least busy engine. -/
def minLoad (c : PickCall) : Nat := ((c.available.argmin c.load).map c.load).getD 0

/-- The pin is honoured. -/
def live (c : PickCall) (pin : Pin) : Bool :=
  c.now < pin.expiry && pin.engine ∈ c.available &&
    c.load pin.engine ≤ c.minLoad + affinitySlack

end PickCall

namespace PickState

/-- The live pin of the session. -/
def pinned (s : PickState) (c : PickCall) : Option Nat :=
  (c.session.bind s.sessions.get?).bind fun pin => if c.live pin then some pin.engine else none

def pin (s : PickState) (c : PickCall) (engine : Nat) : PickState :=
  match c.session with
  | some key => { s with sessions := s.sessions.set key ⟨engine, c.now + sessionTtl⟩ }
  | none => s

/-- The keys of the first expired pins, as many as are dropped at once. -/
def expired (s : PickState) (now : ℚ) : List String :=
  ((s.sessions.entries.filter fun e => e.2.expiry ≤ now).map Prod.fst).take 512

/-- `# bound memory: drop a batch of expired keys` -/
def evict (s : PickState) (c : PickCall) : PickState :=
  if c.session.isSome ∧ 4096 < s.sessions.size then
    { s with sessions := s.sessions.delete (s.expired c.now) }
  else s

/-- The engine by the strategy. -/
def balance (s : PickState) (c : PickCall) : Option (Nat × PickState) :=
  match s.lbStrategy with
  | .leastBusy => (c.available.argmin c.load).map fun engine => (engine, s)
  | .roundRobin =>
    (c.available[s.rrIndex % c.available.length]?).map fun engine =>
      (engine, { s with rrIndex := s.rrIndex + 1 })

/-- `_pick_engine`; it raises when no engine is available. -/
def pickEngine (s : PickState) (c : PickCall) : Option (Choice × PickState) :=
  if c.available = [] then none
  else
    match s.pinned c with
    | some engine => some (.honoured engine, s.pin c engine)
    | none => (s.balance c).map fun (engine, s) => (.balanced engine, (s.pin c engine).evict c)

/-- The pool after a call. -/
def next (s : PickState) (c : PickCall) : PickState := (s.pickEngine c).elim s Prod.snd

/-- What a run of calls returns, `none` where it raises. -/
def choices (s : PickState) : List PickCall → List (Option Choice)
  | [] => []
  | c :: cs => (s.pickEngine c).map Prod.fst :: (s.next c).choices cs

/-- The engines that a run chooses by the strategy. -/
def balancedEngines (s : PickState) (cs : List PickCall) : List Nat :=
  (s.choices cs).filterMap fun choice => choice.bind Choice.turn

end PickState

-- ════════════════════════════════════════════════════════════════════════
-- One call
-- ════════════════════════════════════════════════════════════════════════

variable {s t : PickState} {c : PickCall} {cs : List PickCall} {choice : Choice} {engine : Nat}
  {key : String}

namespace PickCall

theorem available_nodup : c.available.Nodup := List.nodup_range.filter _

theorem exists_argmin (h : c.available ≠ []) : ∃ engine, c.available.argmin c.load = some engine :=
  Option.ne_none_iff_exists'.mp (mt List.argmin_eq_none.mp h)

theorem minLoad_le {i : Nat} (h : i ∈ c.available) : c.minLoad ≤ c.load i := by
  obtain ⟨engine, hmin⟩ := exists_argmin (List.ne_nil_of_mem h)
  rw [minLoad, hmin]
  exact List.le_of_mem_argmin h hmin

theorem exists_load_eq_minLoad (h : c.available ≠ []) : ∃ i ∈ c.available, c.load i = c.minLoad := by
  obtain ⟨engine, hmin⟩ := exists_argmin h
  refine ⟨engine, List.argmin_mem hmin, ?_⟩
  rw [minLoad, hmin]
  rfl

end PickCall

namespace PickState

theorem pin_of_session (h : c.session = some key) : s.pin c engine =
    { s with sessions := s.sessions.set key ⟨engine, c.now + sessionTtl⟩ } := by
  rw [pin, h]

theorem pin_of_none (h : c.session = none) : s.pin c engine = s := by
  rw [pin, h]

theorem rrIndex_pin : (s.pin c engine).rrIndex = s.rrIndex := by
  unfold pin
  split <;> rfl

theorem rrIndex_evict : (s.evict c).rrIndex = s.rrIndex := by
  unfold evict
  split_ifs <;> rfl

theorem lbStrategy_pin : (s.pin c engine).lbStrategy = s.lbStrategy := by
  unfold pin
  split <;> rfl

theorem lbStrategy_evict : (s.evict c).lbStrategy = s.lbStrategy := by
  unfold evict
  split_ifs <;> rfl

/-- Only expired pins are dropped. -/
theorem expiry_of_mem_expired {now : ℚ} {pin : Pin} (hkey : key ∈ s.expired now)
    (hpin : s.sessions.get? key = some pin) : pin.expiry ≤ now := by
  obtain ⟨e, he, rfl⟩ := List.mem_map.mp (List.mem_of_mem_take hkey)
  obtain ⟨hmem, hle⟩ := List.mem_filter.mp he
  have hpin' : s.sessions.get? e.1 = some e.2 := OrderedDict.get?_eq_some_iff.mpr hmem
  obtain rfl := Option.some.inj (hpin.symm.trans hpin')
  exact of_decide_eq_true hle

theorem get?_evict {pin : Pin} (hpin : s.sessions.get? key = some pin) (h : c.now < pin.expiry) :
    (s.evict c).sessions.get? key = some pin := by
  unfold evict
  split_ifs
  · refine (OrderedDict.get?_delete_of_not_mem fun hmem => ?_).trans hpin
    exact absurd (expiry_of_mem_expired hmem hpin) (not_le.mpr h)
  · exact hpin

/-- The session is pinned to its engine. -/
theorem get?_pin (h : c.session = some key) :
    (s.pin c engine).sessions.get? key = some ⟨engine, c.now + sessionTtl⟩ := by
  rw [pin_of_session h]
  exact OrderedDict.get?_set_self

theorem now_lt_expiry : c.now < c.now + sessionTtl :=
  lt_add_of_pos_right _ (by decide : (0 : ℚ) < 600)

theorem pinned_eq_some_iff : s.pinned c = some engine ↔
    ∃ key pin, c.session = some key ∧ s.sessions.get? key = some pin ∧ c.live pin ∧
      pin.engine = engine := by
  unfold pinned
  constructor
  · intro h
    obtain ⟨pin, hpin, hlive⟩ := Option.bind_eq_some_iff.mp h
    obtain ⟨key, hkey, hget⟩ := Option.bind_eq_some_iff.mp hpin
    rw [Option.ite_none_right_eq_some] at hlive
    exact ⟨key, pin, hkey, hget, hlive.1, Option.some.inj hlive.2⟩
  · rintro ⟨key, pin, hkey, hget, hlive, rfl⟩
    rw [hkey, Option.bind_some, hget, Option.bind_some, if_pos hlive]

/-- The strategy chooses the least busy engine or the next one in turn. -/
theorem balance_cases (h : s.balance c = some (engine, t)) :
    engine ∈ c.available ∧ t.sessions = s.sessions ∧ t.lbStrategy = s.lbStrategy ∧
      (s.lbStrategy = .leastBusy → ∀ i ∈ c.available, c.load engine ≤ c.load i) ∧
      (s.lbStrategy = .roundRobin →
        c.available[s.rrIndex % c.available.length]? = some engine ∧ t.rrIndex = s.rrIndex + 1) := by
  unfold balance at h
  split at h
  · next hlb =>
    obtain ⟨i, hmin, heq⟩ := Option.map_eq_some_iff.mp h
    cases heq
    exact ⟨List.argmin_mem hmin, rfl, rfl, fun _ i hi => List.le_of_mem_argmin hi hmin,
      fun hrr => (by rw [hlb] at hrr; cases hrr)⟩
  · next hlb =>
    obtain ⟨i, hget, heq⟩ := Option.map_eq_some_iff.mp h
    cases heq
    exact ⟨List.mem_of_getElem? hget, rfl, rfl, fun hleast => (by rw [hlb] at hleast; cases hleast),
      fun _ => ⟨hget, rfl⟩⟩

theorem balance_isSome (h : c.available ≠ []) : (s.balance c).isSome := by
  unfold balance
  split
  · obtain ⟨engine, hmin⟩ := PickCall.exists_argmin h
    rw [hmin]
    rfl
  · rw [Option.isSome_map, List.getElem?_eq_getElem (Nat.mod_lt _ (List.length_pos_iff.mpr h))]
    rfl

/-- What a call does. -/
theorem pickEngine_cases (h : s.pickEngine c = some (choice, t)) :
    (∃ engine, s.pinned c = some engine ∧ choice = .honoured engine ∧ t = s.pin c engine) ∨
      ∃ engine u, s.pinned c = none ∧ s.balance c = some (engine, u) ∧
        choice = .balanced engine ∧ t = (u.pin c engine).evict c := by
  unfold pickEngine at h
  split_ifs at h
  split at h
  · next engine hpinned =>
    cases h
    exact .inl ⟨engine, hpinned, rfl, rfl⟩
  · next hpinned =>
    obtain ⟨⟨engine, u⟩, hbalance, heq⟩ := Option.map_eq_some_iff.mp h
    cases heq
    exact .inr ⟨engine, u, hpinned, hbalance, rfl, rfl⟩

/-- The session is pinned to the engine that it gets. -/
theorem get?_of_pick (hkey : c.session = some key) (hpick : s.pickEngine c = some (choice, t)) :
    t.sessions.get? key = some ⟨choice.engine, c.now + sessionTtl⟩ := by
  obtain ⟨engine, -, rfl, rfl⟩ | ⟨engine, u, -, -, rfl, rfl⟩ := pickEngine_cases hpick
  · exact get?_pin hkey
  · exact get?_evict (get?_pin hkey) now_lt_expiry

/-- **One call**: what `_pick_engine` promises. -/
structure Selects (s : PickState) (c : PickCall) : Prop where
  /-- it raises if and only if no engine is available -/
  raises : s.pickEngine c = none ↔ c.available = []
  available : ∀ choice t, s.pickEngine c = some (choice, t) → choice.engine ∈ c.available
  /-- a live pin is honoured and extended -/
  honours : ∀ key pin, c.session = some key → s.sessions.get? key = some pin →
    c.now < pin.expiry → pin.engine ∈ c.available →
    (∀ i ∈ c.available, c.load pin.engine ≤ c.load i + affinitySlack) →
    ∃ t, s.pickEngine c = some (.honoured pin.engine, t) ∧ t.rrIndex = s.rrIndex ∧
      t.sessions.get? key = some ⟨pin.engine, c.now + sessionTtl⟩
  /-- otherwise the strategy chooses, and the session is pinned to its choice -/
  balances : (∀ key pin, c.session = some key → s.sessions.get? key = some pin →
      ¬ (c.now < pin.expiry ∧ pin.engine ∈ c.available ∧
        ∀ i ∈ c.available, c.load pin.engine ≤ c.load i + affinitySlack)) →
    ∀ choice t, s.pickEngine c = some (choice, t) →
    ∃ engine, choice = .balanced engine ∧
      (s.lbStrategy = .leastBusy → ∀ i ∈ c.available, c.load engine ≤ c.load i) ∧
      (s.lbStrategy = .roundRobin →
        c.available[s.rrIndex % c.available.length]? = some engine ∧ t.rrIndex = s.rrIndex + 1) ∧
      ∀ key, c.session = some key → t.sessions.get? key = some ⟨engine, c.now + sessionTtl⟩

theorem live_iff {pin : Pin} : c.live pin ↔ c.now < pin.expiry ∧ pin.engine ∈ c.available ∧
    ∀ i ∈ c.available, c.load pin.engine ≤ c.load i + affinitySlack := by
  simp only [PickCall.live, Bool.and_eq_true, decide_eq_true_eq, and_assoc]
  refine and_congr_right fun _ => and_congr_right fun hmem => ?_
  constructor
  · intro hle i hi
    have := PickCall.minLoad_le hi
    omega
  · intro hle
    obtain ⟨i, hi, hmin⟩ := PickCall.exists_load_eq_minLoad (List.ne_nil_of_mem hmem)
    exact hmin ▸ hle i hi

theorem selects_of_pick (s : PickState) (c : PickCall) : s.Selects c := by
  refine ⟨⟨fun hnone => ?_, fun hnil => if_pos hnil⟩, ?_, ?_, ?_⟩
  · by_contra hne
    unfold pickEngine at hnone
    rw [if_neg hne] at hnone
    split at hnone
    · cases hnone
    · obtain ⟨e, he⟩ := Option.isSome_iff_exists.mp (balance_isSome (s := s) hne)
      rw [he] at hnone
      cases hnone
  · intro choice t h
    obtain ⟨engine, hpinned, rfl, -⟩ | ⟨engine, u, -, hbalance, rfl, -⟩ := pickEngine_cases h
    · obtain ⟨key, pin, -, -, hlive, rfl⟩ := pinned_eq_some_iff.mp hpinned
      exact (live_iff.mp hlive).2.1
    · exact (balance_cases hbalance).1
  · intro key pin hkey hget hnow hmem hload
    have hpinned : s.pinned c = some pin.engine :=
      pinned_eq_some_iff.mpr ⟨key, pin, hkey, hget, live_iff.mpr ⟨hnow, hmem, hload⟩, rfl⟩
    refine ⟨s.pin c pin.engine, ?_, rrIndex_pin, get?_pin hkey⟩
    unfold pickEngine
    rw [if_neg (List.ne_nil_of_mem hmem), hpinned]
  · intro hnot choice t h
    obtain ⟨engine, hpinned, -, -⟩ | ⟨engine, u, -, hbalance, rfl, rfl⟩ := pickEngine_cases h
    · obtain ⟨key, pin, hkey, hget, hlive, -⟩ := pinned_eq_some_iff.mp hpinned
      exact absurd (live_iff.mp hlive) (hnot key pin hkey hget)
    · obtain ⟨-, -, -, hleast, hturn⟩ := balance_cases hbalance
      refine ⟨engine, rfl, hleast, fun hrr => ⟨(hturn hrr).1, ?_⟩,
        fun key hkey => get?_of_pick hkey h⟩
      rw [rrIndex_evict, rrIndex_pin]
      exact (hturn hrr).2

-- ════════════════════════════════════════════════════════════════════════
-- Runs
-- ════════════════════════════════════════════════════════════════════════

/-- What a call leaves of the strategy. -/
theorem next_cases (s : PickState) (c : PickCall) :
    (s.next c).lbStrategy = s.lbStrategy ∧
      ((s.pickEngine c = none ∧ s.next c = s) ∨
        ∃ choice t, s.pickEngine c = some (choice, t) ∧ s.next c = t) := by
  unfold next
  cases h : s.pickEngine c with
  | none => exact ⟨rfl, .inl ⟨rfl, rfl⟩⟩
  | some result =>
    obtain ⟨choice, t⟩ := result
    refine ⟨?_, .inr ⟨choice, t, rfl, rfl⟩⟩
    obtain ⟨engine, -, -, rfl⟩ | ⟨engine, u, -, hbalance, -, rfl⟩ := pickEngine_cases h
    · exact lbStrategy_pin
    · show ((u.pin c engine).evict c).lbStrategy = _
      rw [lbStrategy_evict, lbStrategy_pin]
      exact (balance_cases hbalance).2.2.1

/-- **Turns**: the choices in turn go round the available engines, from the index on. -/
theorem balanced_eq {available : List Nat} (hrr : s.lbStrategy = .roundRobin)
    (hcs : ∀ c ∈ cs, c.available = available) :
    ∃ m, s.balancedEngines cs =
      (List.range' s.rrIndex m).map fun i => available.getD (i % available.length) 0 := by
  induction cs generalizing s with
  | nil => exact ⟨0, rfl⟩
  | cons c cs ih =>
    have hc := hcs c List.mem_cons_self
    obtain ⟨hstrategy, hcases⟩ := next_cases s c
    obtain ⟨m, hm⟩ := ih (hstrategy.trans hrr) fun d hd => hcs d (List.mem_cons_of_mem _ hd)
    have hcons : s.balancedEngines (c :: cs) =
        (((s.pickEngine c).map Prod.fst).bind Choice.turn).toList ++ (s.next c).balancedEngines cs := by
      unfold balancedEngines
      rw [choices, List.filterMap_cons]
      cases ((s.pickEngine c).map Prod.fst).bind Choice.turn <;> rfl
    obtain ⟨hpick, hnext⟩ | ⟨choice, t, hpick, hnext⟩ := hcases
    · refine ⟨m, ?_⟩
      rw [hcons, hm, hnext, hpick]
      rfl
    · rw [hcons, hm, hnext, hpick]
      obtain ⟨engine, -, rfl, rfl⟩ | ⟨engine, u, -, hbalance, rfl, rfl⟩ := pickEngine_cases hpick
      · refine ⟨m, ?_⟩
        rw [rrIndex_pin]
        rfl
      · obtain ⟨hget, hindex⟩ := (balance_cases hbalance).2.2.2.2 hrr
        refine ⟨m + 1, ?_⟩
        rw [rrIndex_evict, rrIndex_pin, hindex, List.range'_succ, List.map_cons]
        rw [hc] at hget
        rw [List.getD_eq_getElem?_getD, hget]
        rfl

/-- Any window as long as the list of engines is that list, turned. -/
theorem window_perm {available : List Nat} (r : Nat) :
    ((List.range' r available.length).map fun i => available.getD (i % available.length) 0).Perm
      available := by
  have hrotate : (List.range' r available.length).map
      (fun i => available.getD (i % available.length) 0) = available.rotate r := by
    refine List.ext_getElem (by simp) fun i h₁ h₂ => ?_
    have hlt : (r + i) % available.length < available.length :=
      Nat.mod_lt _ (by simp at h₁; omega)
    rw [List.getElem_map, List.getElem_range', List.getElem_rotate, Nat.one_mul,
      List.getD_eq_getElem?_getD,
      List.getElem?_eq_getElem hlt, Option.getD_some]
    simp only [Nat.add_comm r i]
  rw [hrotate]
  exact List.rotate_perm _ _

/-- Each call of a session comes while its pin on the engine is live. -/
def StaysLive (key : String) (engine : Nat) : ℚ → List PickCall → Prop
  | _, [] => True
  | expiry, c :: cs =>
    if c.session = some key then
      c.live ⟨engine, expiry⟩ ∧ StaysLive key engine (c.now + sessionTtl) cs
    else StaysLive key engine expiry cs

/-- The first call of a session that is pinned comes before its pin expires. -/
theorem exists_lt_of_staysLive {expiry : ℚ} (h : StaysLive key engine expiry cs)
    (hmem : ∃ c ∈ cs, c.session = some key) : ∃ c ∈ cs, c.now < expiry := by
  induction cs with
  | nil =>
    obtain ⟨c, hc, -⟩ := hmem
    cases hc
  | cons c cs ih =>
    rw [StaysLive] at h
    split_ifs at h with hkey
    · exact ⟨c, List.mem_cons_self, (live_iff.mp h.1).1⟩
    · obtain ⟨d, hd, hdkey⟩ := hmem
      have hdcs : d ∈ cs := (List.mem_cons.mp hd).resolve_left fun heq => hkey (heq ▸ hdkey)
      obtain ⟨e, he, hlt⟩ := ih h ⟨d, hdcs, hdkey⟩
      exact ⟨e, List.mem_cons_of_mem _ he, hlt⟩

/-- A call of another session keeps the pin, or drops it when it has expired. -/
theorem get?_next_of_ne {pin : Pin} (hkey : c.session ≠ some key)
    (hpin : s.sessions.get? key = some pin) :
    (s.next c).sessions.get? key = some pin ∨ pin.expiry ≤ c.now := by
  have hother {u : PickState} {i : Nat} (hu : u.sessions.get? key = some pin) :
      (u.pin c i).sessions.get? key = some pin := by
    cases hsession : c.session with
    | none => rwa [pin_of_none hsession]
    | some key' =>
      rw [pin_of_session hsession]
      refine (OrderedDict.get?_set_of_ne ?_).trans hu
      rintro rfl
      exact hkey hsession
  obtain ⟨-, ⟨-, hnext⟩ | ⟨choice, t, hpick, hnext⟩⟩ := next_cases s c
  · exact .inl (by rw [hnext]; exact hpin)
  · rw [hnext]
    obtain ⟨i, -, -, rfl⟩ | ⟨i, u, -, hbalance, -, rfl⟩ := pickEngine_cases hpick
    · exact .inl (hother hpin)
    · have hu : u.sessions.get? key = some pin := by
        rw [(balance_cases hbalance).2.1]
        exact hpin
      by_cases hnow : c.now < pin.expiry
      · exact .inl (get?_evict (hother hu) hnow)
      · exact .inr (not_lt.mp hnow)

/-- **Sessions**: a session stays on its engine while each of its calls finds the pin live. -/
theorem honoured_of_staysLive {expiry : ℚ} (hclock : cs.Pairwise fun c d => c.now ≤ d.now)
    (hpin : s.sessions.get? key = some ⟨engine, expiry⟩ ∨ ∀ c ∈ cs, c.session ≠ some key)
    (hlive : StaysLive key engine expiry cs) :
    ∀ p ∈ cs.zip (s.choices cs), p.1.session = some key → p.2 = some (.honoured engine) := by
  induction cs generalizing s expiry with
  | nil => exact fun p hp => absurd hp List.not_mem_nil
  | cons c cs ih =>
    obtain ⟨hnow, hclock⟩ := List.pairwise_cons.mp hclock
    rw [choices, List.zip_cons_cons]
    rw [StaysLive] at hlive
    split_ifs at hlive with hkey
    · have hget := hpin.resolve_right fun hnone => hnone c List.mem_cons_self hkey
      obtain ⟨hlt, hmem, hload⟩ := live_iff.mp hlive.1
      obtain ⟨t, hpick, -, ht⟩ := (selects_of_pick s c).honours key _ hkey hget hlt hmem hload
      have hnext : s.next c = t := by
        rw [next, hpick]
        rfl
      intro p hp
      rcases List.mem_cons.mp hp with rfl | hp
      · intro _
        rw [hpick]
        rfl
      · exact ih hclock (.inl (by rw [hnext]; exact ht)) hlive.2 p hp
    · have hpin' : (s.next c).sessions.get? key = some ⟨engine, expiry⟩ ∨
          ∀ d ∈ cs, d.session ≠ some key := by
        obtain hget | hnone := hpin
        · refine (get?_next_of_ne hkey hget).imp_right fun hexpired d hd hdkey => ?_
          obtain ⟨e, he, hlt⟩ := exists_lt_of_staysLive hlive ⟨d, hd, hdkey⟩
          exact absurd (hexpired.trans (hnow e he)) (not_le.mpr hlt)
        · exact .inr fun d hd => hnone d (List.mem_cons_of_mem _ hd)
      intro p hp
      rcases List.mem_cons.mp hp with rfl | hp
      · exact fun hsession => absurd hsession hkey
      · exact ih hclock hpin' hlive p hp

/-- **Selection**: every call, and every run of calls. -/
structure SelectsInRuns (s : PickState) : Prop where
  selects : ∀ c, s.Selects c
  /-- as many choices in turn as there are engines hit each of them once -/
  turns : ∀ cs available i, s.lbStrategy = .roundRobin → (∀ c ∈ cs, c.available = available) →
    i + available.length ≤ (s.balancedEngines cs).length →
    (((s.balancedEngines cs).drop i).take available.length).Perm available ∧ available.Nodup
  /-- a session stays while each of its calls finds its pin live -/
  stays : ∀ cs key engine expiry, cs.Pairwise (fun c d => c.now ≤ d.now) →
    s.sessions.get? key = some ⟨engine, expiry⟩ → StaysLive key engine expiry cs →
    ∀ p ∈ cs.zip (s.choices cs), p.1.session = some key → p.2 = some (.honoured engine)

theorem selectsInRuns_of_state (s : PickState) : s.SelectsInRuns := by
  refine ⟨selects_of_pick s, fun cs available i hrr hcs hle => ?_,
    fun cs key engine expiry hclock hpin => honoured_of_staysLive hclock (.inl hpin)⟩
  obtain ⟨m, hm⟩ := balanced_eq hrr hcs
  have hm' : i + available.length ≤ m := by
    rw [hm, List.length_map, List.length_range'] at hle
    exact hle
  refine ⟨?_, ?_⟩
  · rw [hm, ← List.map_drop, ← List.map_take, List.drop_range',
      List.take_range'_of_length_ge (by omega), Nat.mul_one]
    exact window_perm _
  · cases cs with
    | nil =>
      have hlen : i + available.length ≤ 0 := hle
      rw [List.length_eq_zero_iff.mp (show available.length = 0 by omega)]
      exact List.nodup_nil
    | cons c cs =>
      rw [← hcs c List.mem_cons_self]
      exact PickCall.available_nodup

end PickState

-- ════════════════════════════════════════════════════════════════════════
-- The pool
-- ════════════════════════════════════════════════════════════════════════

namespace Pool

variable {p : Pool} {model : String}

/-- What `_pick_engine` sees of the engines. -/
def views (p : Pool) : List EngineView :=
  p.engines.map fun e => ⟨e.engine.isAvailable, e.engine.activeRequests⟩

theorem mem_available_iff (hc : c.engines = p.views) :
    engine ∈ c.available ↔ p.engines[engine]?.any (·.engine.isAvailable) := by
  have hview : p.views[engine]?.any EngineView.available =
      p.engines[engine]?.any (·.engine.isAvailable) := by
    rw [views, List.getElem?_map, Option.any_map]
  rw [PickCall.available, List.mem_filter, hc, hview, and_iff_right_iff_imp]
  intro h
  obtain ⟨e, he, -⟩ := (Option.any_eq_true _ _).mp h
  rw [views, List.mem_range, List.length_map]
  exact (List.getElem?_eq_some_iff.mp he).1

theorem isAvailable_iff (hmode : p.mode = .multiInstance) (hc : c.engines = p.views) :
    p.isAvailable ↔ c.available ≠ [] := by
  simp only [isAvailable, hmode, List.any_eq_true]
  constructor
  · rintro ⟨e, he, havailable⟩
    obtain ⟨i, hi⟩ := List.mem_iff_getElem?.mp he
    exact List.ne_nil_of_mem ((mem_available_iff hc).mpr (by rw [hi]; exact havailable))
  · intro hne
    obtain ⟨i, hi⟩ := List.exists_mem_of_ne_nil _ hne
    obtain ⟨e, he, havailable⟩ := (Option.any_eq_true _ _).mp ((mem_available_iff hc).mp hi)
    exact ⟨e, List.mem_of_getElem? he, havailable⟩

/-- **Routing**: the pool calls the engine that was picked. -/
theorem generate_of_pick (hmode : p.mode = .multiInstance) (hc : c.engines = p.views)
    (hpick : s.pickEngine c = some (choice, t)) :
    p.generate model choice.engine = some (.engine choice.engine (.generate model)) := by
  have hmem := (PickState.selects_of_pick s c).available choice t hpick
  unfold generate
  rw [hmode]
  dsimp only
  rw [if_pos ((isAvailable_iff hmode hc).mpr (List.ne_nil_of_mem hmem)),
    if_pos ((mem_available_iff hc).mp hmem)]

theorem generate_of_raise (hmode : p.mode = .multiInstance) (hc : c.engines = p.views)
    (hpick : s.pickEngine c = none) : p.generate model engine = some .nothing := by
  have hnil := (PickState.selects_of_pick s c).raises.mp hpick
  unfold generate
  rw [hmode]
  exact if_neg fun h => (isAvailable_iff hmode hc).mp h hnil

end Pool

end OpenModel.Inference
