import Mathlib.Data.Finset.Card
import OpenModel.Scheduler.CacheAge
import OpenModel.Scheduler.Schedule

/-!
# What the look-ahead reads

A poll that finds the current deadline empty fills the gaps of the sector cache and scans it.
For a cache that holds deadlines of the period only, the scan decides on `known`: the cached
count of a deadline or, where there is none, what Lotus answers in this poll. When every query
of the poll succeeds, all of it decides on the counts `reads`.

## Main results

- `sectors_consulted`: the counts that the scan reads
- `findNextSectorDeadline_consulted`: the deadline that it finds
- `lookAhead_eq_nth_of_reads`, `lookAhead_eq_none_of_reads`: what a poll evaluates
-/

namespace OpenModel.Scheduler

namespace SectorCache

/-- The cached count, otherwise what Lotus answers. -/
def known (c : SectorCache) (getDeadlineSectors : SectorAnswers) (i : Nat) : Option Nat :=
  ((c.entries.lookup i).map CacheEntry.sectors).or (getDeadlineSectors i)

/-- Only deadlines of the period are cached. -/
def Keyed (c : SectorCache) (n : Nat) : Prop :=
  ∀ i, (c.entries.lookup i).isSome = true → i < n

/-- A cache that counts as complete holds every deadline of the period. -/
def Covers (c : SectorCache) (info : DeadlineInfo) : Prop :=
  c.incomplete info = false → ∀ i < info.numDeadlines, (c.entries.lookup i).isSome = true

/-- The count that a poll goes by when every query succeeds. -/
def reads (p : YieldPolicy) (c : SectorCache) (info : DeadlineInfo) (sectors : Nat → Nat)
    (i : Nat) : Nat :=
  if i = info.index ∧ c.needsRefresh p info = true then sectors i
  else ((c.entries.lookup i).map CacheEntry.sectors).getD (sectors i)

variable {p : YieldPolicy} {c : SectorCache} {info : DeadlineInfo} {rpc : SectorAnswers}
variable {es : AList (fun _ : Nat => CacheEntry)} {st : Bool} {epoch : Int} {i j n : Nat}

-- ════════════════════════════════════════════════════════════════════════
-- The refresh loop, one deadline at a time
-- ════════════════════════════════════════════════════════════════════════

/-- What one iteration leaves for its own deadline. -/
theorem lookup_refreshEntry_self :
    (refreshEntry st epoch rpc es i).lookup i =
      if !st && (es.lookup i).isSome then es.lookup i
      else ((rpc i).map fun k => ⟨k, epoch⟩).or (es.lookup i) := by
  unfold refreshEntry
  split
  · rfl
  · cases rpc i with
    | none => rfl
    | some k => simp

/-- The loop visits each deadline once. -/
theorem lookup_foldl_refreshEntry {is : List Nat} (hnd : is.Nodup) :
    (is.foldl (refreshEntry st epoch rpc) es).lookup j =
      if j ∈ is then (refreshEntry st epoch rpc es j).lookup j else es.lookup j := by
  induction is generalizing es with
  | nil => simp
  | cons i is ih =>
    obtain ⟨hi, hnd⟩ := List.nodup_cons.mp hnd
    rw [List.foldl_cons, ih hnd]
    by_cases hj : j = i
    · subst hj
      simp [hi]
    · rw [lookup_refreshEntry_self, lookup_refreshEntry_self, lookup_refreshEntry_ne hj]
      simp [hj]

/-- A full refresh under a fresh stamp asks for every deadline that is missing. -/
theorem lookup_refreshFullSectorCache (hs : c.stale p info = false)
    (hall : c.incomplete info = false → (c.entries.lookup i).isSome = true)
    (hi : i < info.numDeadlines) :
    (c.refreshFullSectorCache p info rpc).entries.lookup i =
      (c.entries.lookup i).or ((rpc i).map fun k => ⟨k, info.currentEpoch⟩) := by
  unfold refreshFullSectorCache
  dsimp only
  split
  · next hskip =>
    have hinc : c.incomplete info = false := by simpa [hs] using hskip
    obtain ⟨e, he⟩ := Option.isSome_iff_exists.mp (hall hinc)
    rw [he, Option.some_or]
  · rw [hs, lookup_foldl_refreshEntry List.nodup_range, if_pos (List.mem_range.mpr hi),
      lookup_refreshEntry_self]
    cases c.entries.lookup i with
    | none => simp
    | some e => simp

-- ════════════════════════════════════════════════════════════════════════
-- Caches of one period
-- ════════════════════════════════════════════════════════════════════════

theorem keyed_empty (n : Nat) (stamp : Int) : SectorCache.Keyed ⟨∅, stamp⟩ n := by
  intro i hi
  simp at hi

theorem Keyed.covers (hk : c.Keyed n) (hn : info.numDeadlines = n) : c.Covers info := by
  intro hinc i hi
  rw [hn] at hi
  have hlen : n ≤ c.entries.keys.length := by
    rw [← hn]
    simpa [incomplete] using hinc
  have hsub : c.entries.keys.toFinset ⊆ Finset.range n := by
    intro k hkey
    rw [List.mem_toFinset, AList.mem_keys.symm] at hkey
    exact Finset.mem_range.mpr (hk k (AList.lookup_isSome.mpr hkey))
  have heq : c.entries.keys.toFinset = Finset.range n := by
    refine Finset.eq_of_subset_of_card_le hsub ?_
    rwa [Finset.card_range, List.toFinset_card_of_nodup c.entries.keys_nodup]
  have hmem : i ∈ c.entries.keys.toFinset := heq ▸ Finset.mem_range.mpr hi
  rw [List.mem_toFinset, ← AList.mem_keys] at hmem
  exact AList.lookup_isSome.mpr hmem

theorem Keyed.insert (hk : c.Keyed n) (hi : i < n) (e : CacheEntry) (stamp : Int) :
    SectorCache.Keyed ⟨c.entries.insert i e, stamp⟩ n := by
  intro j hj
  by_cases hij : j = i
  · exact hij ▸ hi
  · refine hk j ?_
    rwa [← AList.lookup_insert_ne hij]

theorem Keyed.deadlineHasNoSectors (hk : c.Keyed n) (hi : info.index < n) :
    (c.deadlineHasNoSectors p info rpc).2.Keyed n := by
  obtain ⟨-, -, hd⟩ | ⟨k, -, -, hd⟩ | ⟨e, -, -, hd⟩ := deadlineHasNoSectors_cases p c info rpc
  · rwa [hd]
  · rw [hd]
    exact hk.insert hi _ _
  · rwa [hd]

/-- After the check of the current deadline as before it. -/
theorem Keyed.covers_deadlineHasNoSectors (hk : c.Keyed n) (hn : info.numDeadlines = n)
    (hi : info.index < n) (p : YieldPolicy) (rpc : SectorAnswers) :
    (c.deadlineHasNoSectors p info rpc).2.Covers info :=
  (hk.deadlineHasNoSectors hi).covers hn

theorem Keyed.refreshFullSectorCache (hk : c.Keyed n) (hn : info.numDeadlines = n) :
    (c.refreshFullSectorCache p info rpc).Keyed n := by
  intro j hj
  by_contra hge
  have hnone : (c.entries.lookup j).isSome ≠ true := fun h => hge (hk j h)
  refine hnone ?_
  unfold SectorCache.refreshFullSectorCache at hj
  dsimp only at hj
  split at hj
  · exact hj
  · rw [lookup_foldl_refreshEntry List.nodup_range, if_neg] at hj
    · exact hj
    · rw [List.mem_range]
      omega

/-- **Step lemma**: a poll caches deadlines of the period only. -/
theorem Keyed.lookAhead (hk : c.Keyed n) (hn : info.numDeadlines = n) (hi : info.index < n) :
    (c.lookAhead p info rpc).2.Keyed n := by
  rw [lookAhead_cache]
  split
  · exact (hk.deadlineHasNoSectors hi).refreshFullSectorCache hn
  · exact hk.deadlineHasNoSectors hi

/-- Every cached count is the true one. -/
def Truthful (c : SectorCache) (sectors : Nat → Nat) : Prop :=
  ∀ i e, c.entries.lookup i = some e → e.sectors = sectors i

variable {sectors : Nat → Nat} {q : Nat}

theorem Truthful.deadlineHasNoSectors (hc : c.Truthful sectors)
    (hrpc : ∀ i k, rpc i = some k → k = sectors i) :
    (c.deadlineHasNoSectors p info rpc).2.Truthful sectors := by
  obtain ⟨-, -, hd⟩ | ⟨k, -, hr, hd⟩ | ⟨e, -, -, hd⟩ := deadlineHasNoSectors_cases p c info rpc
  · rwa [hd]
  · rw [hd]
    intro i e he
    by_cases hi : i = info.index
    · subst hi
      rw [AList.lookup_insert] at he
      rw [← Option.some.inj he]
      exact hrpc _ k hr
    · rw [AList.lookup_insert_ne hi] at he
      exact hc i e he
  · rwa [hd]

/-- **Step lemma**: true answers, some of which may be missing, keep a cache truthful. -/
theorem Truthful.lookAhead (hc : c.Truthful sectors)
    (hrpc : ∀ i k, rpc i = some k → k = sectors i) :
    (c.lookAhead p info rpc).2.Truthful sectors := by
  have hfirst : (c.deadlineHasNoSectors p info rpc).2.Truthful sectors :=
    hc.deadlineHasNoSectors hrpc
  rw [lookAhead_cache]
  split
  · intro i e he
    obtain hold | ⟨-, hnew⟩ := refreshFullSectorCache_fetched he
    · exact hfirst i e hold
    · exact hrpc i _ hnew
  · exact hfirst

/-- A poll on a truthful cache goes by the true counts. -/
theorem Truthful.reads_eq (hc : c.Truthful sectors) (p : YieldPolicy) (info : DeadlineInfo) :
    c.reads p info sectors = sectors := by
  funext i
  unfold reads
  split
  · rfl
  · cases he : c.entries.lookup i with
    | none => rfl
    | some e => exact hc i e he

-- ════════════════════════════════════════════════════════════════════════
-- The scan
-- ════════════════════════════════════════════════════════════════════════

/-- The scan visits the other deadlines of the period. -/
theorem mem_scanOrder (hi : info.index < info.numDeadlines) (hj : j ∈ info.scanOrder) :
    j < info.numDeadlines ∧ j ≠ info.index := by
  obtain ⟨k, hk, rfl⟩ := List.mem_map.mp hj
  rw [List.mem_range'_1] at hk
  refine ⟨Nat.mod_lt _ (by omega), ?_⟩
  by_cases hwrap : info.index + k < info.numDeadlines
  · rw [Nat.mod_eq_of_lt hwrap]
    omega
  · rw [Nat.mod_eq_sub_mod (by omega), Nat.mod_eq_of_lt (by omega)]
    omega

/-- The check that leads to a look-ahead leaves the current deadline cached as empty and
the others as they were. -/
theorem lookup_deadlineHasNoSectors_of_empty (h : (c.deadlineHasNoSectors p info rpc).1 = true) :
    (((c.deadlineHasNoSectors p info rpc).2.entries.lookup info.index).map CacheEntry.sectors =
      some 0) ∧
    ∀ j, j ≠ info.index →
      (c.deadlineHasNoSectors p info rpc).2.entries.lookup j = c.entries.lookup j := by
  obtain ⟨-, -, hd⟩ | ⟨k, -, -, hd⟩ | ⟨e, -, he, hd⟩ := deadlineHasNoSectors_cases p c info rpc
  · rw [hd] at h
    cases h
  · rw [hd] at h ⊢
    have hk : k = 0 := by simpa using h
    exact ⟨by simp [hk], fun j hj => AList.lookup_insert_ne hj⟩
  · rw [hd] at h ⊢
    have hk : e.sectors = 0 := by simpa using h
    exact ⟨by simp [he, hk], fun _ _ => rfl⟩

/-- **Scan**: the current deadline reads as empty, the others as far as they are known. -/
theorem sectors_consulted (hcov : (c.deadlineHasNoSectors p info rpc).2.Covers info)
    (h : (c.deadlineHasNoSectors p info rpc).1 = true) (hj : j < info.numDeadlines) :
    ((c.consulted p info rpc).entries.lookup j).map CacheEntry.sectors =
      if j = info.index then some 0 else c.known rpc j := by
  obtain ⟨hcur, hother⟩ := lookup_deadlineHasNoSectors_of_empty h
  rw [consulted, lookup_refreshFullSectorCache (refreshFullSectorCache_not_stale h)
    (fun hinc => hcov hinc j hj) hj]
  by_cases hji : j = info.index
  · subst hji
    obtain ⟨e, he, hz⟩ := Option.map_eq_some_iff.mp hcur
    simp [he, hz]
  · rw [if_neg hji, hother j hji, known]
    cases c.entries.lookup j with
    | none =>
      rw [Option.none_or, Option.map_none, Option.none_or, Option.map_map]
      exact Option.map_id_apply
    | some e => simp

/-- The scan sees sectors in a deadline that is known to have some. -/
theorem hasSectors_eq :
    c.hasSectors j = decide (0 < ((c.entries.lookup j).map CacheEntry.sectors).getD 0) := by
  unfold hasSectors
  cases c.entries.lookup j <;> rfl

theorem hasSectors_consulted (hcov : (c.deadlineHasNoSectors p info rpc).2.Covers info)
    (hi : info.index < info.numDeadlines)
    (h : (c.deadlineHasNoSectors p info rpc).1 = true) (hj : j ∈ info.scanOrder) :
    (c.consulted p info rpc).hasSectors j = decide (0 < (c.known rpc j).getD 0) := by
  obtain ⟨hlt, hne⟩ := mem_scanOrder hi hj
  rw [hasSectors_eq, sectors_consulted hcov h hlt, if_neg hne]

/-- **Look-ahead**: the first of the other deadlines that is known to have sectors. -/
theorem findNextSectorDeadline_consulted
    (hcov : (c.deadlineHasNoSectors p info rpc).2.Covers info)
    (hi : info.index < info.numDeadlines) (h : (c.deadlineHasNoSectors p info rpc).1 = true) :
    (c.consulted p info rpc).findNextSectorDeadline info =
      info.scanOrder.find? fun j => decide (0 < (c.known rpc j).getD 0) := by
  rw [findNextSectorDeadline, ← List.head?_filter,
    List.filter_congr fun j hj => hasSectors_consulted hcov hi h hj, List.head?_filter]

/-- The deadlines that the look-ahead passes over. -/
theorem skipped_consulted (hcov : (c.deadlineHasNoSectors p info rpc).2.Covers info)
    (hi : info.index < info.numDeadlines) (h : (c.deadlineHasNoSectors p info rpc).1 = true) :
    (c.consulted p info rpc).skipped info =
      info.scanOrder.takeWhile fun j => !decide (0 < (c.known rpc j).getD 0) := by
  have hall : ∀ is : List Nat, (∀ j ∈ is, j ∈ info.scanOrder) →
      (is.takeWhile fun j => !(c.consulted p info rpc).hasSectors j) =
        is.takeWhile fun j => !decide (0 < (c.known rpc j).getD 0) := by
    intro is
    induction is with
    | nil => exact fun _ => rfl
    | cons j is ih =>
      intro hmem
      have hj := hasSectors_consulted hcov hi h (hmem j List.mem_cons_self)
      rw [List.takeWhile_cons, List.takeWhile_cons, hj,
        ih fun k hk => hmem k (List.mem_cons_of_mem j hk)]
  exact hall info.scanOrder fun _ h => h

/-- A poll that looks ahead evaluates the deadline that the scan finds. -/
theorem lookAhead_of_empty (h : (c.deadlineHasNoSectors p info rpc).1 = true) :
    (c.lookAhead p info rpc).1 =
      ((c.consulted p info rpc).findNextSectorDeadline info).map info.virtualInfo := by
  unfold lookAhead consulted
  generalize c.deadlineHasNoSectors p info rpc = d at h
  obtain ⟨b, c₁⟩ := d
  dsimp only at h
  subst h
  rfl

/-- A poll that does not look ahead evaluates the current deadline. -/
theorem lookAhead_of_not_empty (h : (c.deadlineHasNoSectors p info rpc).1 = false) :
    (c.lookAhead p info rpc).1 = some info := by
  unfold lookAhead
  generalize c.deadlineHasNoSectors p info rpc = d at h
  obtain ⟨b, c₁⟩ := d
  dsimp only at h
  subst h
  rfl

-- ════════════════════════════════════════════════════════════════════════
-- Polls at which every query succeeds
-- ════════════════════════════════════════════════════════════════════════

theorem deadlineHasNoSectors_eq_reads :
    (c.deadlineHasNoSectors p info fun i => some (sectors i)).1 =
      (c.reads p info sectors info.index == 0) := by
  obtain ⟨-, hr, -⟩ | ⟨k, hn, hr, hd⟩ | ⟨e, hn, he, hd⟩ :=
    deadlineHasNoSectors_cases p c info fun i => some (sectors i)
  · cases hr
  · cases hr
    rw [hd, reads, if_pos ⟨rfl, hn⟩]
  · rw [hd, reads, if_neg (by simp [hn]), he, Option.map_some, Option.getD_some]

theorem known_eq_reads (hj : j ≠ info.index) :
    c.known (fun i => some (sectors i)) j = some (c.reads p info sectors j) := by
  rw [known, reads, if_neg fun h => hj h.1]
  cases c.entries.lookup j <;> rfl

/-- **Evaluated deadline**: the first one, from the current one on, with sectors by the counts
that the poll goes by. -/
theorem lookAhead_eq_nth_of_reads (h : info.OnSchedule)
    (hk : c.Keyed info.wPoStPeriodDeadlines)
    (hq : info.IsFirstWithSectors (c.reads p info sectors) q) :
    (c.lookAhead p info fun i => some (sectors i)).1 = some (info.nth q) := by
  have hlt := h.onPeriod.isFirstWithSectors_lt hq
  have hnum := h.onPeriod.numDeadlines_eq
  have hidx := h.index_lt
  obtain ⟨hle, hpos, hmin⟩ := hq
  have hmodi : info.index % info.wPoStPeriodDeadlines = info.index := Nat.mod_eq_of_lt hidx
  by_cases hqi : q = info.index
  · subst hqi
    rw [hmodi] at hpos
    have hfull : (c.deadlineHasNoSectors p info fun i => some (sectors i)).1 = false := by
      rw [deadlineHasNoSectors_eq_reads]
      simp
      omega
    rw [lookAhead_of_not_empty hfull, h.nth_index]
  · have hzero : c.reads p info sectors info.index = 0 := by
      have := hmin info.index le_rfl (by omega)
      rwa [hmodi] at this
    have hempty : (c.deadlineHasNoSectors p info fun i => some (sectors i)).1 = true := by
      rw [deadlineHasNoSectors_eq_reads, hzero, beq_self_eq_true]
    have hread : ∀ r, info.index < r → r < info.index + info.wPoStPeriodDeadlines →
        (c.known (fun i => some (sectors i)) (r % info.wPoStPeriodDeadlines)).getD 0 =
          c.reads p info sectors (r % info.wPoStPeriodDeadlines) := by
      intro r hlo hhi
      rw [known_eq_reads, Option.getD_some]
      by_cases hr : r < info.wPoStPeriodDeadlines
      · rw [Nat.mod_eq_of_lt hr]
        omega
      · rw [Nat.mod_eq_sub_mod (by omega), Nat.mod_eq_of_lt (by omega)]
        omega
    have hcov := hk.covers_deadlineHasNoSectors hnum hidx p fun i => some (sectors i)
    rw [lookAhead_of_empty hempty, findNextSectorDeadline_consulted hcov (hnum ▸ hidx) hempty,
      h.onPeriod.find?_scanOrder (by omega) hlt ?_ ?_, Option.map_some,
      h.onPeriod.virtualInfo_eq_nth (by omega) hlt]
    · rw [hread q (by omega) hlt]
      simpa using hpos
    · intro r hr1 hr2
      rw [hread r hr1 (by omega), hmin r (by omega) hr2]
      rfl

/-- A poll that goes by empty deadlines alone finds nothing to evaluate. -/
theorem lookAhead_eq_none_of_reads (h : info.OnSchedule)
    (hk : c.Keyed info.wPoStPeriodDeadlines)
    (hz : ∀ i < info.wPoStPeriodDeadlines, c.reads p info sectors i = 0) :
    (c.lookAhead p info fun i => some (sectors i)).1 = none := by
  have hnum := h.onPeriod.numDeadlines_eq
  have hidx := h.index_lt
  have hempty : (c.deadlineHasNoSectors p info fun i => some (sectors i)).1 = true := by
    rw [deadlineHasNoSectors_eq_reads, hz _ hidx, beq_self_eq_true]
  have hcov := hk.covers_deadlineHasNoSectors hnum hidx p fun i => some (sectors i)
  have hfind : (c.consulted p info fun i => some (sectors i)).findNextSectorDeadline info =
      none := by
    rw [findNextSectorDeadline, List.find?_eq_none]
    intro j hj
    obtain ⟨hlt, hne⟩ := mem_scanOrder (hnum ▸ hidx) hj
    rw [hasSectors_consulted hcov (hnum ▸ hidx) hempty hj, known_eq_reads hne,
      Option.getD_some, hz j (hnum ▸ hlt)]
    decide
  rw [lookAhead_of_empty hempty, hfind, Option.map_none]

end SectorCache

end OpenModel.Scheduler
