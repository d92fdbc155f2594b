import Mathlib.Data.List.AList
import OpenModel.Scheduler.Policy

/-!
# Sector cache and look-ahead

The scheduler remembers for each deadline how many sectors Lotus last reported,
under one shared epoch stamp. This file embeds the functions that fill and read
that cache: `deadlineHasNoSectors`, `refreshFullSectorCache`,
`findNextSectorDeadline`, `nextDeadlineOpenEpoch`, and the part of
`checkWindowPost` that puts them together (`lookAhead`).

An RPC `GetDeadlineSectors` is a function from the deadline index to the number
of sectors, with `none` for an error.

## Main results

- `refreshFullSectorCache_of_not_stale`: with a fresh stamp only missing entries
  are fetched
- `refreshFullSectorCache_fetched`: every other entry is fetched by the refresh
- `Accurate.deadlineHasNoSectors`, `Accurate.refreshFullSectorCache`: accurate
  answers keep an accurate cache accurate
-/

namespace OpenModel.Scheduler

/-- What `GetDeadlineSectors` answers in one poll. -/
abbrev SectorAnswers := Nat → Option Nat

/-- A value of the map `sectorCache`. The source stores `sectors` alone;
`fetchedAt` records the epoch of the poll that fetched the value, and no
modelled function reads it. -/
structure CacheEntry where
  sectors : Nat
  fetchedAt : Int
  deriving DecidableEq, Repr

/-- `sectorCache` and `sectorCacheEpoch`. -/
structure SectorCache where
  entries : AList (fun _ : Nat => CacheEntry) := ∅
  epoch : Int := 0

/-- Number of deadlines in a proving period; the source falls back to 48. -/
def DeadlineInfo.numDeadlines (info : DeadlineInfo) : Nat :=
  if info.wPoStPeriodDeadlines = 0 then 48 else info.wPoStPeriodDeadlines

/-- Epochs for which the per-deadline sector cache stays valid. -/
def YieldPolicy.sectorCacheRefreshInterval (p : YieldPolicy) : Int :=
  if 0 < p.windowPost.sectorCacheRefreshEpochs then p.windowPost.sectorCacheRefreshEpochs
  else 2880

theorem YieldPolicy.sectorCacheRefreshInterval_pos (p : YieldPolicy) :
    0 < p.sectorCacheRefreshInterval := by
  unfold sectorCacheRefreshInterval
  split <;> omega

namespace SectorCache

/-- The shared stamp is older than the refresh interval. -/
def stale (p : YieldPolicy) (c : SectorCache) (info : DeadlineInfo) : Bool :=
  decide (p.sectorCacheRefreshInterval < info.currentEpoch - c.epoch)

/-- Fewer deadlines are cached than the period has. -/
def incomplete (c : SectorCache) (info : DeadlineInfo) : Bool :=
  decide (c.entries.keys.length < info.numDeadlines)

/-- The cache knows of sectors in this deadline. -/
def hasSectors (c : SectorCache) (idx : Nat) : Bool :=
  match c.entries.lookup idx with
  | some e => 0 < e.sectors
  | none => false

/-- The entry of one deadline is missing or too old to be trusted. -/
def needsRefresh (p : YieldPolicy) (c : SectorCache) (info : DeadlineInfo) : Bool :=
  (c.entries.lookup info.index).isNone || c.stale p info

/-- `deadlineHasNoSectors`: the answer and the cache it leaves behind. -/
def deadlineHasNoSectors (p : YieldPolicy) (c : SectorCache) (info : DeadlineInfo)
    (getDeadlineSectors : SectorAnswers) : Bool × SectorCache :=
  if c.needsRefresh p info then
    match getDeadlineSectors info.index with
    | none => (false, c)
    | some sectors =>
      (sectors == 0,
        { entries := c.entries.insert info.index ⟨sectors, info.currentEpoch⟩
          epoch := info.currentEpoch })
  else
    -- a missing key reads as the zero value of the map
    (((c.entries.lookup info.index).map CacheEntry.sectors).getD 0 == 0, c)

/-- One iteration of the loop of `refreshFullSectorCache`. -/
def refreshEntry (stale : Bool) (epoch : Int) (getDeadlineSectors : SectorAnswers)
    (entries : AList (fun _ : Nat => CacheEntry)) (i : Nat) :
    AList (fun _ : Nat => CacheEntry) :=
  if !stale && (entries.lookup i).isSome then entries
  else
    match getDeadlineSectors i with
    | none => entries
    | some sectors => entries.insert i ⟨sectors, epoch⟩

/-- `refreshFullSectorCache`. -/
def refreshFullSectorCache (p : YieldPolicy) (c : SectorCache) (info : DeadlineInfo)
    (getDeadlineSectors : SectorAnswers) : SectorCache :=
  let stale := c.stale p info
  if !stale && !c.incomplete info then c
  else
    { entries := (List.range info.numDeadlines).foldl
        (refreshEntry stale info.currentEpoch getDeadlineSectors) c.entries
      epoch := info.currentEpoch }

end SectorCache

/-- The deadlines after the current one, in the order the look-ahead scans them. -/
def DeadlineInfo.scanOrder (info : DeadlineInfo) : List Nat :=
  (List.range' 1 (info.numDeadlines - 1)).map fun i => (info.index + i) % info.numDeadlines

/-- `findNextSectorDeadline`. -/
def SectorCache.findNextSectorDeadline (c : SectorCache) (info : DeadlineInfo) : Option Nat :=
  info.scanOrder.find? c.hasSectors

/-- `nextDeadlineOpenEpoch`. -/
def DeadlineInfo.nextDeadlineOpenEpoch (info : DeadlineInfo) (targetIdx : Nat) : Int :=
  if info.index < targetIdx then
    info.periodStart + targetIdx * info.wPoStChallengeWindow
  else
    info.periodStart + info.wPoStProvingPeriod + targetIdx * info.wPoStChallengeWindow

/-- The virtual `DeadlineInfo` that `checkWindowPost` builds for an upcoming
deadline with sectors. -/
def DeadlineInfo.virtualInfo (info : DeadlineInfo) (nextIdx : Nat) : DeadlineInfo :=
  let nextOpen := info.nextDeadlineOpenEpoch nextIdx
  { currentEpoch := info.currentEpoch
    periodStart :=
      if nextIdx ≤ info.index then info.periodStart + info.wPoStProvingPeriod
      else info.periodStart
    index := nextIdx
    opensAt := nextOpen
    closesAt := nextOpen + info.wPoStChallengeWindow
    wPoStPeriodDeadlines := info.wPoStPeriodDeadlines
    wPoStProvingPeriod := info.wPoStProvingPeriod
    wPoStChallengeWindow := info.wPoStChallengeWindow }

/-- The sector look-ups of `checkWindowPost`: the deadline to evaluate, or `none`
when no deadline is known to have sectors, and the cache left behind. -/
def SectorCache.lookAhead (p : YieldPolicy) (c : SectorCache) (info : DeadlineInfo)
    (getDeadlineSectors : SectorAnswers) : Option DeadlineInfo × SectorCache :=
  match c.deadlineHasNoSectors p info getDeadlineSectors with
  | (false, c₁) => (some info, c₁)
  | (true, c₁) =>
    let c₂ := c₁.refreshFullSectorCache p info getDeadlineSectors
    ((c₂.findNextSectorDeadline info).map info.virtualInfo, c₂)

namespace SectorCache

variable {p : YieldPolicy} {c : SectorCache} {info : DeadlineInfo} {rpc : SectorAnswers}

theorem stale_iff : c.stale p info = true ↔
    p.sectorCacheRefreshInterval < info.currentEpoch - c.epoch := by
  simp [stale]

theorem needsRefresh_eq_false_iff : c.needsRefresh p info = false ↔
    (∃ e, c.entries.lookup info.index = some e) ∧ c.stale p info = false := by
  simp [needsRefresh, Option.isNone_eq_false_iff, Option.isSome_iff_exists]

/-- One iteration touches no other deadline. -/
theorem lookup_refreshEntry_ne {st : Bool} {epoch : Int}
    {es : AList (fun _ : Nat => CacheEntry)} {i j : Nat} (h : j ≠ i) :
    (refreshEntry st epoch rpc es i).lookup j = es.lookup j := by
  unfold refreshEntry
  split
  · rfl
  · cases rpc i with
    | none => rfl
    | some n => exact AList.lookup_insert_ne h

/-- Without a stale stamp an existing entry is kept. -/
theorem lookup_refreshEntry_of_isSome {epoch : Int}
    {es : AList (fun _ : Nat => CacheEntry)} {i j : Nat} {e : CacheEntry}
    (h : es.lookup j = some e) :
    (refreshEntry false epoch rpc es i).lookup j = some e := by
  by_cases hj : j = i
  · subst hj
    simp [refreshEntry, h]
  · rw [lookup_refreshEntry_ne hj, h]

/-- An entry that one iteration changes was fetched at the iteration's epoch. -/
theorem refreshEntry_fetched {st : Bool} {epoch : Int}
    {es : AList (fun _ : Nat => CacheEntry)} {i j : Nat} {e : CacheEntry}
    (h : (refreshEntry st epoch rpc es i).lookup j = some e) :
    es.lookup j = some e ∨ (e.fetchedAt = epoch ∧ rpc j = some e.sectors) := by
  by_cases hj : j = i
  · subst hj
    revert h
    unfold refreshEntry
    split
    · exact Or.inl
    · cases hr : rpc j with
      | none => exact Or.inl
      | some n =>
        intro h
        rw [AList.lookup_insert] at h
        cases h
        exact Or.inr ⟨rfl, rfl⟩
  · rw [lookup_refreshEntry_ne hj] at h
    exact Or.inl h

theorem lookup_foldl_of_isSome {epoch : Int} {is : List Nat}
    {es : AList (fun _ : Nat => CacheEntry)} {j : Nat} {e : CacheEntry}
    (h : es.lookup j = some e) :
    (is.foldl (refreshEntry false epoch rpc) es).lookup j = some e := by
  induction is generalizing es with
  | nil => exact h
  | cons i is ih => exact ih (lookup_refreshEntry_of_isSome h)

theorem foldl_fetched {st : Bool} {epoch : Int} {is : List Nat}
    {es : AList (fun _ : Nat => CacheEntry)} {j : Nat} {e : CacheEntry}
    (h : (is.foldl (refreshEntry st epoch rpc) es).lookup j = some e) :
    es.lookup j = some e ∨ (e.fetchedAt = epoch ∧ rpc j = some e.sectors) := by
  induction is generalizing es with
  | nil => exact Or.inl h
  | cons i is ih =>
    obtain h | h := ih h
    · exact refreshEntry_fetched h
    · exact Or.inr h

/-- Every deadline in the loop for which Lotus answers is cached afterwards. -/
theorem isSome_lookup_foldl {st : Bool} {epoch : Int} {is : List Nat}
    {es : AList (fun _ : Nat => CacheEntry)} {j n : Nat} (hj : j ∈ is) (hr : rpc j = some n) :
    ((is.foldl (refreshEntry st epoch rpc) es).lookup j).isSome := by
  have hkeep : ∀ (is : List Nat) (es : AList (fun _ : Nat => CacheEntry)),
      (es.lookup j).isSome → ((is.foldl (refreshEntry st epoch rpc) es).lookup j).isSome := by
    intro is
    induction is with
    | nil => exact fun _ h => h
    | cons i is ih =>
      intro es h
      refine ih _ ?_
      by_cases hij : j = i
      · subst hij
        unfold refreshEntry
        split
        · exact h
        · simp [hr]
      · rwa [lookup_refreshEntry_ne hij]
  induction is generalizing es with
  | nil => cases hj
  | cons i is ih =>
    rcases List.mem_cons.mp hj with rfl | hj
    · refine hkeep is _ ?_
      unfold refreshEntry
      split
      · next h => exact (Bool.and_eq_true_iff.mp h).2
      · simp [hr]
    · exact ih hj

/-- **Fresh stamp**: the full refresh keeps every entry that is already there. -/
theorem refreshFullSectorCache_of_not_stale {j : Nat} {e : CacheEntry}
    (hs : c.stale p info = false) (h : c.entries.lookup j = some e) :
    (c.refreshFullSectorCache p info rpc).entries.lookup j = some e := by
  unfold refreshFullSectorCache
  dsimp only
  split
  · exact h
  · rw [hs]
    exact lookup_foldl_of_isSome h

/-- Every entry after a full refresh was there before or is fetched by it. -/
theorem refreshFullSectorCache_fetched {j : Nat} {e : CacheEntry}
    (h : (c.refreshFullSectorCache p info rpc).entries.lookup j = some e) :
    c.entries.lookup j = some e ∨
      (e.fetchedAt = info.currentEpoch ∧ rpc j = some e.sectors) := by
  unfold refreshFullSectorCache at h
  dsimp only at h
  split at h
  · exact Or.inl h
  · exact foldl_fetched h

/-- The stamp after a full refresh is the old one or the poll's epoch. -/
theorem epoch_refreshFullSectorCache (p : YieldPolicy) (c : SectorCache) (info : DeadlineInfo)
    (rpc : SectorAnswers) :
    (c.refreshFullSectorCache p info rpc) = c ∨
      (c.refreshFullSectorCache p info rpc).epoch = info.currentEpoch := by
  unfold refreshFullSectorCache
  dsimp only
  split
  · exact Or.inl rfl
  · exact Or.inr rfl

/-- Every deadline of the period is cached with its true sector count. -/
def Accurate (c : SectorCache) (n : Nat) (sectors : Nat → Nat) : Prop :=
  ∀ i < n, ∃ e, c.entries.lookup i = some e ∧ e.sectors = sectors i

variable {n : Nat} {sectors : Nat → Nat} {stamp : Int}

theorem Accurate.hasSectors_iff (h : c.Accurate n sectors) {i : Nat} (hi : i < n) :
    c.hasSectors i = true ↔ 0 < sectors i := by
  obtain ⟨e, he, hs⟩ := h i hi
  simp [hasSectors, he, hs]

/-- Storing a true count keeps a cache accurate. -/
theorem Accurate.insert (h : c.Accurate n sectors) (i : Nat) (epoch stamp : Int) :
    SectorCache.Accurate ⟨c.entries.insert i ⟨sectors i, epoch⟩, stamp⟩ n sectors := by
  intro j hj
  by_cases hij : j = i
  · subst hij
    exact ⟨_, AList.lookup_insert _, rfl⟩
  · obtain ⟨e, he, hs⟩ := h j hj
    exact ⟨e, by rw [AList.lookup_insert_ne hij, he], hs⟩

/-- On an accurate cache with accurate answers the check tells the truth and the
cache stays accurate. -/
theorem Accurate.deadlineHasNoSectors (h : c.Accurate n sectors) (hi : info.index < n) :
    (c.deadlineHasNoSectors p info fun i => some (sectors i)).1 = (sectors info.index == 0) ∧
      (c.deadlineHasNoSectors p info fun i => some (sectors i)).2.Accurate n sectors := by
  unfold SectorCache.deadlineHasNoSectors
  split
  · exact ⟨rfl, h.insert _ _ _⟩
  · obtain ⟨e, he, hs⟩ := h _ hi
    simp [he, hs, h]

/-- A full refresh with accurate answers keeps a cache accurate. -/
theorem Accurate.refreshFullSectorCache (h : c.Accurate n sectors) (p : YieldPolicy)
    (info : DeadlineInfo) :
    (c.refreshFullSectorCache p info fun i => some (sectors i)).Accurate n sectors := by
  have hfold : ∀ (is : List Nat) (st : Bool) (es : AList (fun _ : Nat => CacheEntry)) (stamp : Int),
      SectorCache.Accurate ⟨es, stamp⟩ n sectors →
      SectorCache.Accurate ⟨is.foldl (refreshEntry st info.currentEpoch fun i => some (sectors i)) es,
        stamp⟩ n sectors := by
    intro is st
    induction is with
    | nil => exact fun _ _ h => h
    | cons i is ih =>
      intro es stamp h
      refine ih _ stamp ?_
      unfold refreshEntry
      split
      · exact h
      · exact h.insert i _ _
  unfold SectorCache.refreshFullSectorCache
  dsimp only
  split
  · exact h
  · exact hfold _ _ _ _ h

/-- Filling an empty cache with accurate answers makes it accurate. -/
theorem accurate_refreshFullSectorCache_empty (hn : info.numDeadlines = n) (hpos : 0 < n) :
    ((⟨∅, stamp⟩ : SectorCache).refreshFullSectorCache p info fun i => some (sectors i)).Accurate
      n sectors := by
  intro i hi
  have hinc : (⟨∅, stamp⟩ : SectorCache).incomplete info = true := by
    simp [incomplete, hn, hpos]
  have hsome : (((⟨∅, stamp⟩ : SectorCache).refreshFullSectorCache p info
      fun i => some (sectors i)).entries.lookup i).isSome := by
    unfold SectorCache.refreshFullSectorCache
    simp only [hinc, Bool.not_true, Bool.and_false, Bool.false_eq_true, if_false]
    exact isSome_lookup_foldl (List.mem_range.mpr (hn ▸ hi)) rfl
  obtain ⟨e, he⟩ := Option.isSome_iff_exists.mp hsome
  obtain h | ⟨-, hs⟩ := refreshFullSectorCache_fetched he
  · simp at h
  · exact ⟨e, he, (Option.some.inj hs).symm⟩

end SectorCache

end OpenModel.Scheduler
