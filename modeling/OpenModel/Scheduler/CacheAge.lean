import OpenModel.Lib.Transition
import OpenModel.Scheduler.CheckWindowPost

/-!
# Age of the cached sector counts

Runs of polls over the sector cache, which no other goroutine writes. A poll that
takes a deadline to be empty relies on a cached zero; the refresh interval is
meant to bound the age of that zero. The cache keeps one stamp for all entries,
and the check of the current deadline moves the stamp after fetching one entry, so
the full refresh of a stale cache never happens.

## Main results

- `refreshFullSectorCache_not_stale`: the full refresh never finds the cache stale
- `PollRun.honest_of_reach`: in runs that never move the stamp past a zero they keep, no
  cached zero is older than the stamp
- `PollRun.exists_not_fresh`: any other run can be extended by one poll that relies on
  an overdue zero
-/

namespace OpenModel.Scheduler

namespace SectorCache

variable (p : YieldPolicy) (c : SectorCache) (info : DeadlineInfo) (rpc : SectorAnswers)

/-- The deadlines that `findNextSectorDeadline` passes over. -/
def skipped : List Nat := info.scanOrder.takeWhile fun idx => !c.hasSectors idx

/-- The cache from which the look-ahead of this poll reads. -/
def consulted : SectorCache :=
  (c.deadlineHasNoSectors p info rpc).2.refreshFullSectorCache p info rpc

/-- The poll takes deadline `i` to be empty on the strength of the cached entry `e`:
the current deadline, or one that the look-ahead passes over. -/
def ReliesOn (i : Nat) (e : CacheEntry) : Prop :=
  (c.deadlineHasNoSectors p info rpc).1 = true ∧
    i ∈ info.index :: (c.consulted p info rpc).skipped info ∧
      (c.consulted p info rpc).entries.lookup i = some e ∧ e.sectors = 0

/-- Every cached zero the poll relies on was fetched at most one refresh interval
before the poll's epoch. -/
def ReliesOnFresh : Prop :=
  ∀ i e, c.ReliesOn p info rpc i e → info.currentEpoch - e.fetchedAt ≤ p.sectorCacheRefreshInterval

/-- The poll refetches the entry of the current deadline. -/
def Refetches : Prop := c.needsRefresh p info = true ∧ (rpc info.index).isSome

/-- The poll sets the shared stamp to its own epoch: it refetches the current
deadline, or it trusts a cached zero for it and finds other deadlines missing. -/
def MovesStamp : Prop :=
  c.Refetches p info rpc ∨
    (c.needsRefresh p info = false ∧ c.incomplete info = true ∧
      ∃ e, c.entries.lookup info.index = some e ∧ e.sectors = 0)

/-- A poll that moves the stamp keeps no zero that an earlier epoch fetched. -/
def KeepsStampHonest : Prop :=
  c.MovesStamp p info rpc → ∀ i e, c.entries.lookup i = some e → e.sectors = 0 →
    (i = info.index → ¬ c.Refetches p info rpc) → info.currentEpoch ≤ e.fetchedAt

/-- No cached zero is older than the shared stamp. -/
def Honest (c : SectorCache) : Prop :=
  ∀ i e, c.entries.lookup i = some e → e.sectors = 0 → c.epoch ≤ e.fetchedAt

/-- What the check of the current deadline does, by the answer it needs. -/
theorem deadlineHasNoSectors_cases :
    (c.needsRefresh p info = true ∧ rpc info.index = none ∧
      c.deadlineHasNoSectors p info rpc = (false, c)) ∨
    (∃ n, c.needsRefresh p info = true ∧ rpc info.index = some n ∧
      c.deadlineHasNoSectors p info rpc =
        (n == 0, ⟨c.entries.insert info.index ⟨n, info.currentEpoch⟩, info.currentEpoch⟩)) ∨
    (∃ e, c.needsRefresh p info = false ∧ c.entries.lookup info.index = some e ∧
      c.deadlineHasNoSectors p info rpc = (e.sectors == 0, c)) := by
  by_cases hn : c.needsRefresh p info = true
  · cases hr : rpc info.index with
    | none => exact Or.inl ⟨hn, rfl, by simp [deadlineHasNoSectors, hn, hr]⟩
    | some n => exact Or.inr (Or.inl ⟨n, hn, rfl, by simp [deadlineHasNoSectors, hn, hr]⟩)
  · have hn' : c.needsRefresh p info = false := by simpa using hn
    obtain ⟨⟨e, he⟩, -⟩ := needsRefresh_eq_false_iff.mp hn'
    exact Or.inr (Or.inr ⟨e, hn', he, by simp [deadlineHasNoSectors, hn', he]⟩)

variable {p c info rpc} {i : Nat} {e : CacheEntry}

/-- **Dead branch**: after a check that found the current deadline empty the cache
is never stale, so `refreshFullSectorCache` only fetches missing entries. -/
theorem refreshFullSectorCache_not_stale
    (h : (c.deadlineHasNoSectors p info rpc).1 = true) :
    (c.deadlineHasNoSectors p info rpc).2.stale p info = false := by
  obtain ⟨-, -, hd⟩ | ⟨n, -, -, hd⟩ | ⟨e, hn, -, hd⟩ :=
    deadlineHasNoSectors_cases p c info rpc
  · simp [hd] at h
  · have := p.sectorCacheRefreshInterval_pos
    simp [hd, stale]
    omega
  · rw [hd]
    exact (needsRefresh_eq_false_iff.mp hn).2

/-- An entry after the check of the current deadline was cached before and not
refetched, or the check fetched it. -/
theorem lookup_deadlineHasNoSectors
    (h : (c.deadlineHasNoSectors p info rpc).2.entries.lookup i = some e) :
    (c.entries.lookup i = some e ∧ (i = info.index → ¬ c.Refetches p info rpc)) ∨
      e.fetchedAt = info.currentEpoch := by
  obtain ⟨hn, hr, hd⟩ | ⟨n, hn, hr, hd⟩ | ⟨e', hn, he', hd⟩ :=
    deadlineHasNoSectors_cases p c info rpc
  · rw [hd] at h
    exact Or.inl ⟨h, fun _ hf => by simp [Refetches, hr] at hf⟩
  · rw [hd] at h
    by_cases hi : i = info.index
    · subst hi
      rw [AList.lookup_insert] at h
      cases h
      exact Or.inr rfl
    · rw [AList.lookup_insert_ne hi] at h
      exact Or.inl ⟨h, fun h' => absurd h' hi⟩
  · rw [hd] at h
    exact Or.inl ⟨h, fun _ hf => by simp [Refetches, hn] at hf⟩

/-- An entry that the look-ahead reads was cached before and not refetched, or it was
fetched by this poll. -/
theorem lookup_consulted (h : (c.consulted p info rpc).entries.lookup i = some e) :
    (c.entries.lookup i = some e ∧ (i = info.index → ¬ c.Refetches p info rpc)) ∨
      e.fetchedAt = info.currentEpoch := by
  obtain h | ⟨h, -⟩ := refreshFullSectorCache_fetched h
  · exact lookup_deadlineHasNoSectors h
  · exact Or.inr h

/-- The cache after a poll is the one the look-ahead reads, or the one the check of
the current deadline leaves. -/
theorem lookAhead_cache :
    (c.lookAhead p info rpc).2 =
      if (c.deadlineHasNoSectors p info rpc).1 = true then c.consulted p info rpc
      else (c.deadlineHasNoSectors p info rpc).2 := by
  unfold lookAhead consulted
  generalize c.deadlineHasNoSectors p info rpc = d
  obtain ⟨b, c₁⟩ := d
  cases b <;> rfl

/-- An entry that a poll does not refetch stays in the cache. -/
theorem lookup_lookAhead_of_kept (h : c.entries.lookup i = some e)
    (hk : i = info.index → ¬ c.Refetches p info rpc) :
    (c.lookAhead p info rpc).2.entries.lookup i = some e := by
  have hfirst : (c.deadlineHasNoSectors p info rpc).2.entries.lookup i = some e := by
    obtain ⟨-, -, hd⟩ | ⟨n, hn, hr, hd⟩ | ⟨e', -, -, hd⟩ :=
      deadlineHasNoSectors_cases p c info rpc
    · rwa [hd]
    · have hi : i ≠ info.index := fun hi => hk hi ⟨hn, by simp [hr]⟩
      rw [hd]
      exact (AList.lookup_insert_ne hi).trans h
    · rwa [hd]
  rw [lookAhead_cache]
  split
  · next hb =>
    exact refreshFullSectorCache_of_not_stale (refreshFullSectorCache_not_stale hb) hfirst
  · exact hfirst

/-- A poll that relies on a zero and leaves the stamp where it is has found the
stamp within the refresh interval. -/
theorem age_of_not_movesStamp (h : (c.deadlineHasNoSectors p info rpc).1 = true)
    (hm : ¬ c.MovesStamp p info rpc) :
    info.currentEpoch - c.epoch ≤ p.sectorCacheRefreshInterval := by
  obtain ⟨-, -, hd⟩ | ⟨n, hn, hr, -⟩ | ⟨e, hn, -, -⟩ :=
    deadlineHasNoSectors_cases p c info rpc
  · simp [hd] at h
  · exact absurd (Or.inl ⟨hn, by simp [hr]⟩) hm
  · have hs := (needsRefresh_eq_false_iff.mp hn).2
    by_contra hlt
    have := stale_iff.mpr (show p.sectorCacheRefreshInterval < info.currentEpoch - c.epoch by omega)
    rw [hs] at this
    cases this

/-- **One poll**: an honest stamp that the poll keeps honest bounds the age of every
zero it relies on. -/
theorem Honest.reliesOnFresh (hc : c.Honest) (hk : c.KeepsStampHonest p info rpc) :
    c.ReliesOnFresh p info rpc := by
  rintro i e ⟨hno, -, hl, hz⟩
  have hpos := p.sectorCacheRefreshInterval_pos
  obtain ⟨hold, hkept⟩ | hnew := lookup_consulted hl
  · by_cases hm : c.MovesStamp p info rpc
    · have := hk hm i e hold hz hkept
      omega
    · have h1 := age_of_not_movesStamp hno hm
      have h2 := hc i e hold hz
      omega
  · omega

/-- A poll moves the stamp to its own epoch or leaves the cache as it was. -/
theorem lookAhead_epoch :
    (c.MovesStamp p info rpc → (c.lookAhead p info rpc).2.epoch = info.currentEpoch) ∧
      (¬ c.MovesStamp p info rpc → (c.lookAhead p info rpc).2 = c) := by
  obtain ⟨hn, hr, hd⟩ | ⟨n, hn, hr, hd⟩ | ⟨e, hn, he, hd⟩ :=
    deadlineHasNoSectors_cases p c info rpc
  · have hm : ¬ c.MovesStamp p info rpc := by simp [MovesStamp, Refetches, hn, hr]
    exact ⟨fun h => absurd h hm, fun _ => by simp [lookAhead, hd]⟩
  · have hm : c.MovesStamp p info rpc := Or.inl ⟨hn, by simp [hr]⟩
    refine ⟨fun _ => ?_, fun h => absurd hm h⟩
    cases n with
    | zero =>
      simp only [lookAhead, hd, beq_self_eq_true]
      obtain h | h := epoch_refreshFullSectorCache p
        ⟨c.entries.insert info.index ⟨0, info.currentEpoch⟩, info.currentEpoch⟩ info rpc
      · rw [h]
      · exact h
    | succ n => simp [lookAhead, hd]
  · have hs := (needsRefresh_eq_false_iff.mp hn).2
    cases hz : e.sectors with
    | succ n =>
      have hm : ¬ c.MovesStamp p info rpc := by simp [MovesStamp, Refetches, hn, he, hz]
      exact ⟨fun h => absurd h hm, fun _ => by simp [lookAhead, hd, hz]⟩
    | zero =>
      by_cases hi : c.incomplete info = true
      · have hm : c.MovesStamp p info rpc := Or.inr ⟨hn, hi, e, he, hz⟩
        exact ⟨fun _ => by simp [lookAhead, hd, hz, refreshFullSectorCache, hs, hi],
          fun h => absurd hm h⟩
      · have hi' : c.incomplete info = false := by simpa using hi
        have hm : ¬ c.MovesStamp p info rpc := by simp [MovesStamp, Refetches, hn, hi']
        exact ⟨fun h => absurd h hm,
          fun _ => by simp [lookAhead, hd, hz, refreshFullSectorCache, hs, hi']⟩

/-- An entry after a poll was cached before and not refetched, or it was fetched by
this poll. -/
theorem lookup_lookAhead (h : (c.lookAhead p info rpc).2.entries.lookup i = some e) :
    (c.entries.lookup i = some e ∧ (i = info.index → ¬ c.Refetches p info rpc)) ∨
      e.fetchedAt = info.currentEpoch := by
  rw [lookAhead_cache] at h
  split at h
  · exact lookup_consulted h
  · exact lookup_deadlineHasNoSectors h

/-- **Step lemma**: a poll that keeps the stamp honest leaves an honest cache. -/
theorem Honest.lookAhead (hc : c.Honest) (hk : c.KeepsStampHonest p info rpc) :
    (c.lookAhead p info rpc).2.Honest := by
  by_cases hm : c.MovesStamp p info rpc
  · intro i e hl hz
    rw [lookAhead_epoch.1 hm]
    obtain ⟨hold, hkept⟩ | hnew := lookup_lookAhead hl
    · exact hk hm i e hold hz hkept
    · exact hnew.ge
  · rwa [lookAhead_epoch.2 hm]

/-- A cached zero of an earlier epoch under a stamp of this one becomes overdue while
the stamp still vouches for it. -/
theorem exists_overdue_poll (he : c.entries.lookup i = some e) (hz : e.sectors = 0)
    (hold : e.fetchedAt < c.epoch) (info : DeadlineInfo) (rpc : SectorAnswers) :
    ∃ info' : DeadlineInfo, c.epoch ≤ info'.currentEpoch ∧ ¬ c.ReliesOnFresh p info' rpc := by
  have hpos := p.sectorCacheRefreshInterval_pos
  let info' : DeadlineInfo :=
    { info with
      index := i
      currentEpoch := max c.epoch (e.fetchedAt + p.sectorCacheRefreshInterval + 1) }
  have hnotstale : c.stale p info' = false := by
    simp only [stale, info', decide_eq_false_iff_not]
    omega
  have hn : c.needsRefresh p info' = false :=
    needsRefresh_eq_false_iff.mpr ⟨⟨e, he⟩, hnotstale⟩
  have hd : c.deadlineHasNoSectors p info' rpc = (true, c) := by
    simp only [deadlineHasNoSectors, hn]
    simp [info', he, hz]
  refine ⟨info', le_max_left _ _, fun hfresh => ?_⟩
  have hrelies : c.ReliesOn p info' rpc i e := by
    refine ⟨by rw [hd], List.mem_cons_self, ?_, hz⟩
    rw [consulted, hd]
    exact refreshFullSectorCache_of_not_stale hnotstale he
  have := hfresh i e hrelies
  simp only [info'] at this
  omega

end SectorCache

/-- The sector cache between two polls, and the epoch of the last one. -/
structure PollRun where
  cache : SectorCache
  lastEpoch : Int

namespace PollRun

/-- Polls with nondecreasing epochs, started on an empty cache. A poll at which
`GetProvingDeadline` fails does not touch the cache. -/
def system (p : YieldPolicy) : Transition.System PollRun LotusAnswers where
  init s := s.cache = ⟨∅, 0⟩
  step s answers :=
    match answers.deadline with
    | none => some s
    | some info =>
      if s.lastEpoch ≤ info.currentEpoch then
        some ⟨(s.cache.lookAhead p info answers.sectors).2, info.currentEpoch⟩
      else none

/-- The poll does not move the shared stamp past a zero that it keeps. -/
def honestPoll (p : YieldPolicy) (s : PollRun) (answers : LotusAnswers) : Prop :=
  ∀ info, answers.deadline = some info → s.cache.KeepsStampHonest p info answers.sectors

/-- Every zero that the poll relies on is fresh. -/
def Fresh (p : YieldPolicy) (s : PollRun) (answers : LotusAnswers) : Prop :=
  ∀ info, answers.deadline = some info → s.lastEpoch ≤ info.currentEpoch →
    s.cache.ReliesOnFresh p info answers.sectors

variable {p : YieldPolicy} {s : PollRun} {answers : LotusAnswers}

/-- **Run lemma**: polls that keep the stamp honest keep the cache honest. -/
theorem honest_of_reach (h : (system p).Reach (honestPoll p) s) : s.cache.Honest := by
  refine h.invariant (I := fun s => s.cache.Honest) ?_ ?_
  · intro s h0 i e he
    rw [show s.cache = ⟨∅, 0⟩ from h0] at he
    simp at he
  · intro s answers t hs hok hstep
    cases hd : answers.deadline with
    | none =>
      simp only [system, hd] at hstep
      cases hstep
      exact hs
    | some info =>
      simp only [system, hd] at hstep
      split at hstep
      · cases hstep
        exact hs.lookAhead (hok info hd)
      · cases hstep

/-- A poll that is not honest leaves a cache on which a later poll relies on an
overdue zero. -/
theorem exists_not_fresh (hle : ∀ info, answers.deadline = some info →
      s.lastEpoch ≤ info.currentEpoch) (hno : ¬ honestPoll p s answers) :
    ∃ t answers', (system p).step s answers = some t ∧ ¬ Fresh p t answers' := by
  simp only [honestPoll, SectorCache.KeepsStampHonest, not_forall] at hno
  obtain ⟨info, hd, hm, i, e, he, hz, hk, hlt⟩ := hno
  have hepoch := SectorCache.lookAhead_epoch.1 hm
  obtain ⟨info', hle', hbad⟩ := SectorCache.exists_overdue_poll (p := p)
    (SectorCache.lookup_lookAhead_of_kept he hk) hz (by omega) info answers.sectors
  refine ⟨⟨(s.cache.lookAhead p info answers.sectors).2, info.currentEpoch⟩,
    ⟨some info', answers.sectors⟩, by simp [system, hd, hle info hd], fun hf => ?_⟩
  exact hbad (hf info' rfl (hepoch ▸ hle'))

/-- **Exact condition**: in runs whose polls never move the shared stamp past a zero
that they keep, every zero that is relied on is fresh; and a poll that does move it
leaves a cache on which a later poll relies on an overdue zero. -/
theorem fresh_of_honestPolls (p : YieldPolicy) :
    (∀ s answers, (system p).Reach (honestPoll p) s → honestPoll p s answers →
      Fresh p s answers) ∧
    ∀ s answers t, (system p).step s answers = some t → ¬ honestPoll p s answers →
      ∃ answers', ¬ Fresh p t answers' := by
  refine ⟨fun s answers hr hok info hd _ => (honest_of_reach hr).reliesOnFresh (hok info hd), ?_⟩
  intro s answers t hstep hno
  have hle : ∀ info, answers.deadline = some info → s.lastEpoch ≤ info.currentEpoch := by
    intro info hd
    by_contra hlt
    simp [system, hd, hlt] at hstep
  obtain ⟨t', answers', ht', hbad⟩ := exists_not_fresh hle hno
  rw [hstep] at ht'
  cases ht'
  exact ⟨answers', hbad⟩

/-- Lotus reports no sectors in any deadline. -/
def noSectorsAt (epoch : Int) : LotusAnswers := ⟨some (deadline0At epoch), fun _ => some 0⟩

/-- The cache that a first poll at epoch 10 leaves. -/
def filledAt10 : SectorCache :=
  (SectorCache.lookAhead defaultPolicy ⟨∅, 0⟩ (deadline0At 10) fun _ => some 0).2

/-- Ten epochs after the first poll, the next one relies on its zeros, which are fresh. -/
theorem fresh_filledAt10 :
    ∃ s, (system defaultPolicy).Reach (honestPoll defaultPolicy) s ∧
      s.cache.ReliesOn defaultPolicy (deadline0At 20) (fun _ => some 0) 1 ⟨0, 10⟩ ∧
      Fresh defaultPolicy s (noSectorsAt 20) := by
  have hinit : (system defaultPolicy).init ⟨⟨∅, 0⟩, 0⟩ := rfl
  have hfirst : honestPoll defaultPolicy ⟨⟨∅, 0⟩, 0⟩ (noSectorsAt 10) := by
    intro info _ _ i e he
    simp at he
  have hreach : (system defaultPolicy).Reach (honestPoll defaultPolicy) ⟨filledAt10, 10⟩ :=
    .step (l := noSectorsAt 10) (.init hinit) hfirst rfl
  have hsecond : honestPoll defaultPolicy ⟨filledAt10, 10⟩ (noSectorsAt 20) := by
    intro info hinfo hmoves
    obtain rfl : deadline0At 20 = info := Option.some.inj hinfo
    obtain ⟨hneeds, -⟩ | ⟨-, hincomplete, -⟩ := hmoves
    · have hfresh : filledAt10.needsRefresh defaultPolicy (deadline0At 20) = false := by
        decide +kernel
      simp [hfresh] at hneeds
    · have hcomplete : filledAt10.incomplete (deadline0At 20) = false := by decide +kernel
      simp [hcomplete] at hincomplete
  refine ⟨_, hreach, ?_, (fresh_of_honestPolls defaultPolicy).1 _ _ hreach hsecond⟩
  exact ⟨by decide +kernel, by decide +kernel, by decide +kernel, rfl⟩

/-- One refresh interval and one epoch after the first poll, the next poll refetches
deadline 0 alone and stays AVAILABLE on the zeros of epoch 10. -/
theorem filledAt10_not_fresh :
    ∃ s, (system defaultPolicy).Reach Transition.System.anyStep s ∧
      ¬ Fresh defaultPolicy s (noSectorsAt 371) ∧
      (checkWindowPost ⟨defaultPolicy, true, 0⟩ { sectorCache := s.cache }
        (noSectorsAt 371)).1.current = .available := by
  have hrun : (system defaultPolicy).exec ⟨⟨∅, 0⟩, 0⟩ [noSectorsAt 10] = some ⟨filledAt10, 10⟩ := rfl
  have hinit : (system defaultPolicy).init ⟨⟨∅, 0⟩, 0⟩ := rfl
  refine ⟨⟨filledAt10, 10⟩, Transition.System.reach_of_exec hinit hrun, fun hf => ?_, ?_⟩
  · have hrelies : filledAt10.ReliesOn defaultPolicy (deadline0At 371) (fun _ => some 0) 1 ⟨0, 10⟩ := by
      refine ⟨by decide +kernel, by decide +kernel, by decide +kernel, rfl⟩
    have := hf (deadline0At 371) rfl (by decide) 1 ⟨0, 10⟩ hrelies
    revert this
    decide
  · decide +kernel

end PollRun

end OpenModel.Scheduler
