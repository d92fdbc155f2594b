import Mathlib.Data.List.TakeWhile
import OpenModel.Scheduler.LookAhead

/-!
# Deadlines with an unknown sector count

The check of the current deadline takes a failed query to mean that there are sectors. The
look-ahead scans the cache, where a deadline whose query failed has no entry, and takes it to be
empty. Runs of polls with a record of what Lotus last reported for each deadline.

## Main results

- `ReportRun.coherent_of_reach`: the cache holds the last report of every deadline
- `ReportRun.passesOnlyEmpty_iff`: when every deadline that is passed over was reported empty
-/

namespace OpenModel.Scheduler

namespace SectorCache

variable (p : YieldPolicy) (c : SectorCache) (info : DeadlineInfo) (rpc : SectorAnswers)

/-- The deadlines for which `refreshFullSectorCache` asks Lotus. -/
def refreshAsks : List Nat :=
  if !c.stale p info && !c.incomplete info then []
  else (List.range info.numDeadlines).filter fun i =>
    c.stale p info || (c.entries.lookup i).isNone

/-- The deadlines for which one poll asks Lotus. -/
def asks : List Nat :=
  (if c.needsRefresh p info then [info.index] else []) ++
    if (c.deadlineHasNoSectors p info rpc).1 then
      (c.deadlineHasNoSectors p info rpc).2.refreshAsks p info
    else []

/-- The last report of every deadline, after queries for `asked`. -/
def reportsAfter (asked : List Nat) (reports : Nat → Option Nat) (i : Nat) : Option Nat :=
  if i ∈ asked then (rpc i).or (reports i) else reports i

/-- The cache holds what Lotus last reported, for each deadline. -/
def Coherent (c : SectorCache) (reports : Nat → Option Nat) : Prop :=
  ∀ i, (c.entries.lookup i).map CacheEntry.sectors = reports i

/-- Of the other deadlines, none that is neither cached nor reported now comes before the first
one that is known to have sectors. -/
def UnknownScreened : Prop :=
  ∀ i ∈ info.scanOrder.takeWhile fun j => !decide (0 < (c.known rpc j).getD 0),
    (c.known rpc i).isSome = true

variable {p c info rpc} {reports : Nat → Option Nat} {n : Nat}

theorem coherent_refreshFullSectorCache (hc : c.Coherent reports) :
    (c.refreshFullSectorCache p info rpc).Coherent
      (reportsAfter rpc (c.refreshAsks p info) reports) := by
  intro i
  unfold refreshFullSectorCache reportsAfter refreshAsks
  dsimp only
  split
  · next hskip => simpa [hskip] using hc i
  · next hskip =>
    rw [lookup_foldl_refreshEntry List.nodup_range, lookup_refreshEntry_self, ← hc i]
    simp only [List.mem_filter, List.mem_range]
    by_cases hi : i < info.numDeadlines
    · cases c.stale p info <;> cases c.entries.lookup i <;> cases rpc i <;> simp [hi]
    · simp [hi]

theorem coherent_deadlineHasNoSectors (p : YieldPolicy) (info : DeadlineInfo) (rpc : SectorAnswers)
    (hc : c.Coherent reports) :
    (c.deadlineHasNoSectors p info rpc).2.Coherent
      (reportsAfter rpc (if c.needsRefresh p info then [info.index] else []) reports) := by
  intro i
  obtain ⟨hn, hr, hd⟩ | ⟨k, hn, hr, hd⟩ | ⟨e, hn, -, hd⟩ := deadlineHasNoSectors_cases p c info rpc
  · rw [hd, hc i, reportsAfter, if_pos hn]
    by_cases hi : i = info.index
    · simp [hi, hr]
    · simp [hi]
  · rw [hd, reportsAfter, if_pos hn, ← hc i]
    by_cases hi : i = info.index
    · subst hi
      simp [hr]
    · simp [hi, AList.lookup_insert_ne hi]
  · rw [hd, hc i, reportsAfter, hn]
    simp

/-- A deadline is reported twice when both parts of the poll ask for it. -/
theorem reportsAfter_append (l₁ l₂ : List Nat) :
    reportsAfter rpc l₂ (reportsAfter rpc l₁ reports) = reportsAfter rpc (l₁ ++ l₂) reports := by
  funext i
  unfold reportsAfter
  by_cases h₁ : i ∈ l₁
  · by_cases h₂ : i ∈ l₂
    · cases rpc i <;> simp [h₁, h₂]
    · simp [h₁, h₂]
  · simp [h₁]

/-- **Step lemma**: the cache and the record of the reports move together. -/
theorem Coherent.lookAhead (hc : c.Coherent reports) (p : YieldPolicy) (info : DeadlineInfo)
    (rpc : SectorAnswers) :
    (c.lookAhead p info rpc).2.Coherent
      (reportsAfter rpc (c.asks p info rpc) reports) := by
  rw [lookAhead_cache, asks]
  have hfirst := coherent_deadlineHasNoSectors p info rpc hc
  split
  · next h =>
    rw [← reportsAfter_append]
    exact coherent_refreshFullSectorCache hfirst
  · rwa [List.append_nil]

/-- **One poll**: it passes over deadlines that were reported empty and no others, if and only
if it meets no unknown one before a deadline with sectors. -/
theorem passesOnlyEmpty_iff_screened (hc : c.Coherent reports) (hk : c.Keyed n)
    (hn : info.numDeadlines = n) (hi : info.index < n)
    (h : (c.deadlineHasNoSectors p info rpc).1 = true) :
    (∀ i ∈ info.index :: (c.consulted p info rpc).skipped info,
      reportsAfter rpc (c.asks p info rpc) reports i = some 0) ↔
    c.UnknownScreened info rpc := by
  have hafter := hc.lookAhead p info rpc
  rw [lookAhead_cache, if_pos h] at hafter
  have hcov := hk.covers_deadlineHasNoSectors hn hi p rpc
  subst hn
  have hcur : reportsAfter rpc (c.asks p info rpc) reports info.index = some 0 := by
    rw [← hafter info.index, sectors_consulted hcov h hi, if_pos rfl]
  have hother : ∀ i ∈ info.scanOrder,
      reportsAfter rpc (c.asks p info rpc) reports i = c.known rpc i := by
    intro i hmem
    obtain ⟨hlt, hne⟩ := mem_scanOrder hi hmem
    rw [← hafter i, sectors_consulted hcov h hlt, if_neg hne]
  rw [List.forall_mem_cons, skipped_consulted hcov hi h, UnknownScreened]
  constructor
  · rintro ⟨-, hempty⟩ i hmem
    have hzero := hempty i hmem
    rw [hother i (List.takeWhile_subset _ hmem)] at hzero
    rw [hzero, Option.isSome_some]
  · intro hknown
    refine ⟨hcur, fun i hmem => ?_⟩
    obtain ⟨k, hk⟩ := Option.isSome_iff_exists.mp (hknown i hmem)
    have hnone := List.mem_takeWhile_imp hmem
    rw [hother i (List.takeWhile_subset _ hmem), hk]
    rw [hk] at hnone
    simpa using hnone

end SectorCache

/-- The sector cache between two polls, and the last successful report of each deadline. -/
structure ReportRun where
  cache : SectorCache
  reports : Nat → Option Nat

namespace ReportRun

/-- Polls of a miner with `n` deadlines a period, started on an empty cache. Each poll brings its
own answers, failures among them. -/
def system (p : YieldPolicy) (n : Nat) : Transition.System ReportRun LotusAnswers where
  init s := s = ⟨⟨∅, 0⟩, fun _ => none⟩
  step s answers :=
    match answers.deadline with
    | none => some s
    | some info =>
      if info.numDeadlines = n ∧ info.index < n then
        some ⟨(s.cache.lookAhead p info answers.sectors).2,
          SectorCache.reportsAfter answers.sectors (s.cache.asks p info answers.sectors) s.reports⟩
      else none

/-- In this poll, which left `t`, every deadline that the look-ahead passes over was reported
empty: the current one and those before the chosen one, or all of them. -/
def PassesOnlyEmpty (p : YieldPolicy) (s t : ReportRun) (info : DeadlineInfo)
    (rpc : SectorAnswers) : Prop :=
  ∀ i ∈ info.index :: (s.cache.consulted p info rpc).skipped info, t.reports i = some 0

variable {p : YieldPolicy} {n : Nat} {s t : ReportRun} {info : DeadlineInfo}
  {rpc : SectorAnswers}

/-- What a poll does. -/
theorem step_deadline (hstep : (system p n).step s ⟨some info, rpc⟩ = some t) :
    (info.numDeadlines = n ∧ info.index < n) ∧
      t = ⟨(s.cache.lookAhead p info rpc).2,
        SectorCache.reportsAfter rpc (s.cache.asks p info rpc) s.reports⟩ := by
  simp only [system, Option.ite_none_right_eq_some, Option.some.injEq] at hstep
  exact ⟨hstep.1, hstep.2.symm⟩

/-- **Run lemma**: the cache holds the last report of every deadline, and of no others. -/
theorem coherent_of_reach (h : (system p n).Reach Transition.System.anyStep s) :
    s.cache.Coherent s.reports ∧ s.cache.Keyed n := by
  refine h.invariant (I := fun s => s.cache.Coherent s.reports ∧ s.cache.Keyed n) ?_ ?_
  · rintro s rfl
    exact ⟨fun _ => rfl, SectorCache.keyed_empty n 0⟩
  · rintro s ⟨deadline, rpc⟩ t ⟨hc, hk⟩ - hstep
    cases deadline with
    | none =>
      cases hstep
      exact ⟨hc, hk⟩
    | some info =>
      obtain ⟨⟨hn, hi⟩, rfl⟩ := step_deadline hstep
      exact ⟨hc.lookAhead p info rpc, hk.lookAhead hn hi⟩

/-- **Exact condition**: in every run, a poll that looks ahead passes over deadlines that were
reported empty and no others, if and only if no deadline that is neither cached nor reported now
comes before the first one that is known to have sectors. -/
theorem passesOnlyEmpty_iff (hr : (system p n).Reach Transition.System.anyStep s)
    (hstep : (system p n).step s ⟨some info, rpc⟩ = some t)
    (hahead : (s.cache.deadlineHasNoSectors p info rpc).1 = true) :
    PassesOnlyEmpty p s t info rpc ↔ s.cache.UnknownScreened info rpc := by
  obtain ⟨hc, hk⟩ := coherent_of_reach hr
  obtain ⟨⟨hn, hi⟩, rfl⟩ := step_deadline hstep
  exact SectorCache.passesOnlyEmpty_iff_screened hc hk hn hi hahead

/-- Lotus reports the current deadline empty and fails for the others. -/
def onlyCurrent : SectorAnswers := fun i => if i = 0 then some 0 else none

/-- The run before its first poll. -/
def started : ReportRun := ⟨⟨∅, 0⟩, fun _ => none⟩

/-- What a first poll leaves. -/
def polled : ReportRun :=
  ⟨(started.cache.lookAhead defaultPolicy (deadline0At 10) onlyCurrent).2,
    SectorCache.reportsAfter onlyCurrent (started.cache.asks defaultPolicy (deadline0At 10) onlyCurrent)
      started.reports⟩

/-- A first poll at which every query succeeds. -/
theorem passesOnlyEmpty_of_answers :
    ∃ t, (system defaultPolicy 48).step started ⟨some (deadline0At 10), fun _ => some 0⟩ = some t ∧
      PassesOnlyEmpty defaultPolicy started t (deadline0At 10) fun _ => some 0 := by
  refine ⟨_, rfl, (passesOnlyEmpty_iff (n := 48) (.init rfl) rfl rfl).mpr ?_⟩
  intro i _
  rfl

/-- A first poll at which Lotus answers for the current deadline alone passes over the other 47,
of which nothing is known, and stays AVAILABLE. -/
theorem polled_not_passesOnlyEmpty :
    (system defaultPolicy 48).Reach Transition.System.anyStep started ∧
      (system defaultPolicy 48).step started ⟨some (deadline0At 10), onlyCurrent⟩ = some polled ∧
      (started.cache.deadlineHasNoSectors defaultPolicy (deadline0At 10) onlyCurrent).1 = true ∧
      ¬ PassesOnlyEmpty defaultPolicy started polled (deadline0At 10) onlyCurrent ∧
      (checkWindowPost ⟨defaultPolicy, true, 0⟩ { sectorCache := started.cache }
        ⟨some (deadline0At 10), onlyCurrent⟩).1.latestDecision = some noSectorsDecision := by
  refine ⟨.init rfl, rfl, rfl, fun hpass => ?_, by decide +kernel⟩
  have hmem : 1 ∈ (deadline0At 10).index ::
      (started.cache.consulted defaultPolicy (deadline0At 10) onlyCurrent).skipped
        (deadline0At 10) := by decide +kernel
  have hnone : polled.reports 1 = none := by decide +kernel
  have hempty := hpass 1 hmem
  rw [hnone] at hempty
  cases hempty

end ReportRun

end OpenModel.Scheduler
