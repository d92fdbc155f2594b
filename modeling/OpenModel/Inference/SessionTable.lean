import OpenModel.Inference.PickEngine

/-!
# The session table

A new session adds an entry to `_engine_sessions`. Beyond 4096 entries the call drops expired
ones; when none has expired it drops nothing, and the table grows.

## Main results

- `PickState.size_next_iff`: one call, from a table within the bound
- `PickState.bounded_iff`: runs of calls
-/

namespace OpenModel.Inference.PickState

variable {s t u : PickState} {c : PickCall} {cs : List PickCall} {key : String} {engine : Nat}

/-- The entries of the table that a run may leave. -/
def tableBound : Nat := 4097

/-- A new session comes when the table is full of pins that have not expired. -/
def crowds (s : PickState) (c : PickCall) : Bool :=
  c.available ≠ [] && c.session.any (· ∉ s.sessions.keys) && tableBound ≤ s.sessions.size &&
    s.sessions.entries.all fun e => c.now < e.2.expiry

/-- The states of a run. -/
def states (s : PickState) : List PickCall → List PickState
  | [] => [s]
  | c :: cs => s :: (s.next c).states cs

/-- The table is within the bound, and the next call drops no pin that has not expired. -/
structure Bounded (s : PickState) : Prop where
  size : s.sessions.size ≤ tableBound
  evicts : ∀ c key pin, s.sessions.get? key = some pin → c.now < pin.expiry →
    (s.next c).sessions.get? key = some pin ∨
      (c.session = some key ∧ ∃ engine,
        (s.next c).sessions.get? key = some ⟨engine, c.now + sessionTtl⟩)

theorem size_evict_le : (s.evict c).sessions.size ≤ s.sessions.size := by
  unfold evict
  split_ifs
  · exact OrderedDict.size_delete_le
  · exact le_rfl

/-- An expired pin is dropped. -/
theorem size_evict_lt (hsession : c.session.isSome) (hsize : 4096 < s.sessions.size)
    (hexpired : ∃ e ∈ s.sessions.entries, e.2.expiry ≤ c.now) :
    (s.evict c).sessions.size < s.sessions.size := by
  obtain ⟨e, he, hle⟩ := hexpired
  have hmem : e ∈ s.sessions.entries.filter fun e => e.2.expiry ≤ c.now :=
    List.mem_filter.mpr ⟨he, decide_eq_true hle⟩
  obtain ⟨first, rest, heq⟩ := List.exists_cons_of_ne_nil (List.ne_nil_of_mem hmem)
  have hfirst : first ∈ s.sessions.entries := (List.mem_filter.mp (heq ▸ List.mem_cons_self)).1
  have hkey : first.1 ∈ s.expired c.now := by
    rw [expired, heq, List.map_cons]
    exact List.mem_cons_self
  unfold evict
  rw [if_pos ⟨hsession, hsize⟩]
  exact OrderedDict.size_delete_lt hkey (List.mem_map.mpr ⟨first, hfirst, rfl⟩)

/-- Nothing is dropped when no pin has expired. -/
theorem entries_evict (hlive : ∀ e ∈ s.sessions.entries, c.now < e.2.expiry) :
    (s.evict c).sessions.entries = s.sessions.entries := by
  have hnone : s.expired c.now = [] := by
    rw [expired, List.filter_eq_nil_iff.mpr]
    · rfl
    · intro e he
      simpa using hlive e he
  unfold evict
  split_ifs
  · rw [hnone]
    exact OrderedDict.entries_delete_of_not_mem fun _ h => absurd h List.not_mem_nil
  · rfl

/-- **Evictions** drop expired pins only. -/
theorem get?_next {pin : Pin} (hpin : s.sessions.get? key = some pin) (hnow : c.now < pin.expiry) :
    (s.next c).sessions.get? key = some pin ∨
      (c.session = some key ∧ ∃ engine,
        (s.next c).sessions.get? key = some ⟨engine, c.now + sessionTtl⟩) := by
  by_cases hkey : c.session = some key
  · obtain ⟨-, ⟨-, hnext⟩ | ⟨choice, t, hpick, hnext⟩⟩ := next_cases s c
    · exact .inl (by rw [hnext]; exact hpin)
    · refine .inr ⟨hkey, ?_⟩
      rw [hnext]
      obtain ⟨i, -, -, rfl⟩ | ⟨i, u, -, -, -, rfl⟩ := pickEngine_cases hpick
      · exact ⟨i, get?_pin hkey⟩
      · exact ⟨i, get?_evict (get?_pin hkey) now_lt_expiry⟩
  · exact .inl ((get?_next_of_ne hkey hpin).resolve_right (not_le.mpr hnow))

theorem entries_pin_of_not_mem (h : c.session = some key) (hmem : key ∉ s.sessions.keys) :
    (s.pin c engine).sessions.entries =
      s.sessions.entries ++ [(key, ⟨engine, c.now + sessionTtl⟩)] := by
  rw [pin_of_session h]
  exact if_neg hmem

theorem size_pin_of_mem (h : c.session = some key) (hmem : key ∈ s.sessions.keys) :
    (s.pin c engine).sessions.size = s.sessions.size := by
  rw [pin_of_session h]
  exact OrderedDict.size_set_of_mem hmem

theorem size_pin_of_not_mem (h : c.session = some key) (hmem : key ∉ s.sessions.keys) :
    (s.pin c engine).sessions.size = s.sessions.size + 1 := by
  rw [pin_of_session h]
  exact OrderedDict.size_set_of_not_mem hmem

/-- With a new session none has expired if none had. -/
theorem live_pin (engine : Nat) (h : c.session = some key) (hmem : key ∉ s.sessions.keys)
    (hlive : ∀ e ∈ s.sessions.entries, c.now < e.2.expiry) :
    ∀ e ∈ (s.pin c engine).sessions.entries, c.now < e.2.expiry := by
  rw [entries_pin_of_not_mem h hmem]
  intro e he
  rcases List.mem_append.mp he with he | he
  · exact hlive e he
  · rw [List.mem_singleton.mp he]
    exact now_lt_expiry

/-- A call that is not that of a new session adds nothing. -/
theorem size_next_le (h : ∀ key, c.session = some key → key ∈ s.sessions.keys) :
    (s.next c).sessions.size ≤ s.sessions.size := by
  have hpin {u : PickState} (hu : u.sessions = s.sessions) {i : Nat} :
      (u.pin c i).sessions.size = s.sessions.size := by
    cases hsession : c.session with
    | none => rw [pin_of_none hsession, hu]
    | some key => rw [size_pin_of_mem hsession (by rw [hu]; exact h key hsession), hu]
  obtain ⟨-, ⟨-, hnext⟩ | ⟨choice, t, hpick, hnext⟩⟩ := next_cases s c
  · rw [hnext]
  · rw [hnext]
    obtain ⟨i, -, -, rfl⟩ | ⟨i, u, -, hbalance, -, rfl⟩ := pickEngine_cases hpick
    · exact (hpin rfl).le
    · exact size_evict_le.trans (hpin (balance_cases hbalance).2.1).le

/-- A new session is pinned, and then expired pins are dropped. -/
theorem next_of_new (hsession : c.session = some key) (hnew : key ∉ s.sessions.keys)
    (havailable : c.available ≠ []) :
    ∃ (u : PickState) (i : Nat), u.sessions = s.sessions ∧ s.next c = (u.pin c i).evict c := by
  have hpinned : s.pinned c = none := by
    refine Option.eq_none_iff_forall_ne_some.mpr fun i hi => ?_
    obtain ⟨key', pin, hkey, hget, -⟩ := pinned_eq_some_iff.mp hi
    obtain rfl := Option.some.inj (hsession.symm.trans hkey)
    exact hnew (OrderedDict.mem_keys_of_get? hget)
  obtain ⟨⟨i, u⟩, hbalance⟩ := Option.isSome_iff_exists.mp (balance_isSome (s := s) havailable)
  refine ⟨u, i, (balance_cases hbalance).2.1, ?_⟩
  unfold next pickEngine
  rw [if_neg havailable, hpinned]
  dsimp only
  rw [hbalance]
  rfl

/-- **One call** leaves the table within the bound if and only if it does not crowd it. -/
theorem size_next_iff (hsize : s.sessions.size ≤ tableBound) :
    (s.next c).sessions.size ≤ tableBound ↔ ¬ s.crowds c := by
  by_cases hnew : c.available ≠ [] ∧ ∃ key, c.session = some key ∧ key ∉ s.sessions.keys
  · obtain ⟨havailable, key, hsession, hkey⟩ := hnew
    obtain ⟨u, i, hu, hnext⟩ := next_of_new hsession hkey havailable
    have hkey' : key ∉ u.sessions.keys := by rwa [hu]
    have hpin : (u.pin c i).sessions.size = s.sessions.size + 1 := by
      rw [size_pin_of_not_mem hsession hkey', hu]
    have hcrowds : s.crowds c ↔ tableBound ≤ s.sessions.size ∧
        ∀ e ∈ s.sessions.entries, c.now < e.2.expiry := by
      simp [crowds, havailable, hsession, hkey]
    rw [hnext, hcrowds]
    constructor
    · rintro hle ⟨hfull, hlive⟩
      have hsame := entries_evict (live_pin i hsession hkey' (hu ▸ hlive))
      rw [OrderedDict.size, hsame, ← OrderedDict.size, hpin] at hle
      omega
    · intro hnot
      by_cases hfull : tableBound ≤ s.sessions.size
      · have hexpired : ∃ e ∈ s.sessions.entries, e.2.expiry ≤ c.now := by
          by_contra hnone
          exact hnot ⟨hfull, fun e he => not_le.mp fun hle => hnone ⟨e, he, hle⟩⟩
        obtain ⟨e, he, hle⟩ := hexpired
        have hlt := size_evict_lt (s := u.pin c i) (c := c) (by rw [hsession]; rfl)
          (by rw [hpin]; exact Nat.lt_of_lt_of_le (by decide) (hfull.trans (Nat.le_succ _)))
          ⟨e, by
            rw [entries_pin_of_not_mem hsession hkey', hu]
            exact List.mem_append_left _ he, hle⟩
        omega
      · have hle : ((u.pin c i).evict c).sessions.size ≤ _ := size_evict_le
        omega
  · have hcrowds : ¬ s.crowds c := by
      simp only [crowds, Bool.and_eq_true, not_and, decide_eq_true_eq]
      intro hcall
      obtain ⟨key, hkey, hmem⟩ := (Option.any_eq_true _ _).mp hcall.1.2
      exact absurd ⟨hcall.1.1, key, hkey, of_decide_eq_true hmem⟩ hnew
    refine iff_of_true ?_ hcrowds
    by_cases havailable : c.available = []
    · have hnone : s.next c = s := by
        unfold next pickEngine
        rw [if_pos havailable]
        rfl
      rw [hnone]
      exact hsize
    · refine (size_next_le fun key hkey => ?_).trans hsize
      by_contra hmem
      exact hnew ⟨havailable, key, hkey, hmem⟩

theorem bounded_of_size (h : s.sessions.size ≤ tableBound) : s.Bounded :=
  ⟨h, fun _ _ _ hpin hnow => get?_next hpin hnow⟩

theorem mem_states_self : s ∈ s.states cs := by
  cases cs with
  | nil => exact List.mem_singleton_self s
  | cons c cs => exact List.mem_cons_self

/-- From a table within the bound. -/
theorem bounded_iff_of_size (hsize : s.sessions.size ≤ tableBound) :
    (∀ t ∈ s.states cs, t.Bounded) ↔ ∀ p ∈ (s.states cs).zip cs, ¬ p.1.crowds p.2 := by
  induction cs generalizing s with
  | nil =>
    refine iff_of_true (fun t ht => ?_) fun p hp => absurd hp (by simp [states])
    rw [List.mem_singleton.mp ht]
    exact bounded_of_size hsize
  | cons c cs ih =>
    rw [states, List.zip_cons_cons, List.forall_mem_cons, List.forall_mem_cons]
    rw [and_iff_right (bounded_of_size hsize)]
    constructor
    · intro hall
      have hnext := (hall _ mem_states_self).size
      exact ⟨(size_next_iff hsize).mp hnext, (ih hnext).mp hall⟩
    · rintro ⟨hcrowds, hrest⟩
      exact (ih ((size_next_iff hsize).mpr hcrowds)).mpr hrest

/-- **The session table**: in a run from an empty table, all states are within the bound if and
only if no call crowds the table. -/
theorem bounded_iff (lbStrategy : LbStrategy) (cs : List PickCall) :
    (∀ t ∈ ({ lbStrategy } : PickState).states cs, t.Bounded) ↔
      ∀ p ∈ (({ lbStrategy } : PickState).states cs).zip cs, ¬ p.1.crowds p.2 :=
  bounded_iff_of_size (Nat.zero_le _)

/-- A session for each length of its name. -/
def burstKey (i : Nat) : String := String.ofList (List.replicate (i + 1) 'a')

def burstCall (i : Nat) : PickCall where
  sessionKey := some (burstKey i)
  engines := [⟨true, 0⟩]
  now := 0

/-- So many sessions at one time. -/
def burst (n : Nat) : List PickCall := (List.range n).map burstCall

theorem burstKey_inj {i j : Nat} (h : burstKey i = burstKey j) : i = j := by
  have hlen := congrArg (fun s : String => s.toList.length) h
  simpa [burstKey] using hlen

theorem session_burstCall (i : Nat) : (burstCall i).session = some (burstKey i) := by
  have hne : burstKey i ≠ "" := by
    intro h
    have hlen := congrArg (fun s : String => s.toList.length) h
    simp [burstKey] at hlen
  simp [PickCall.session, burstCall, hne]

theorem foldl_mem_states : cs.foldl next s ∈ s.states cs := by
  induction cs generalizing s with
  | nil => exact List.mem_singleton_self s
  | cons c cs ih => exact List.mem_cons_of_mem _ ih

/-- Every session of a burst has its entry. -/
theorem keys_burst (n : Nat) :
    ((burst n).foldl next { lbStrategy := .roundRobin }).sessions.keys =
      (List.range n).map burstKey ∧
    ∀ e ∈ ((burst n).foldl next { lbStrategy := .roundRobin }).sessions.entries,
      0 < e.2.expiry := by
  induction n with
  | zero => exact ⟨rfl, fun e he => absurd he List.not_mem_nil⟩
  | succ n ih =>
    rw [burst, List.range_succ, List.map_append, List.foldl_append, ← burst]
    generalize (burst n).foldl next { lbStrategy := .roundRobin } = s at ih
    obtain ⟨hkeys, hlive⟩ := ih
    have hsession := session_burstCall n
    have hnew : burstKey n ∉ s.sessions.keys := by
      rw [hkeys]
      intro hmem
      obtain ⟨i, hi, heq⟩ := List.mem_map.mp hmem
      exact absurd (burstKey_inj heq) (List.mem_range.mp hi).ne
    obtain ⟨u, i, hu, hnext⟩ := next_of_new hsession hnew
      (show ([0] : List Nat) ≠ [] from List.cons_ne_nil _ _)
    have hnew' : burstKey n ∉ u.sessions.keys := by rwa [hu]
    have hlive' := live_pin i hsession hnew' (hu ▸ hlive)
    have hentries := entries_evict hlive'
    rw [List.map_singleton, List.foldl_cons, List.foldl_nil, hnext, OrderedDict.keys, hentries]
    refine ⟨?_, hlive'⟩
    rw [entries_pin_of_not_mem hsession hnew', hu, List.map_append, List.map_append, ← hkeys]
    rfl

theorem burst_not_bounded :
    ¬ ∀ t ∈ ({ lbStrategy := .roundRobin } : PickState).states (burst 4098), t.Bounded := by
  intro h
  have hsize := (h _ foldl_mem_states).size
  have hlen := congrArg List.length (keys_burst 4098).1
  rw [OrderedDict.keys, List.length_map, List.length_map, List.length_range] at hlen
  rw [OrderedDict.size, hlen] at hsize
  exact absurd hsize (by decide)

end OpenModel.Inference.PickState
