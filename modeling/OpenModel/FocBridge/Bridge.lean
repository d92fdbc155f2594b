import OpenModel.FocBridge.WriteStream
import OpenModel.Lib.Transition

/-!
# The bridge under concurrent downloads

Any number of downloads in one process. A request is checked and refused, or it takes its
destination and gets a handler; from then on the handlers and their streams take turns in any
order. The handler opens its file without waiting for it, so the file can come into being
after the handler has removed it and answered. Then it stays, or the stream truncates the
file of the next download to the same destination.

## Main results

- `Bridge.sound_of_reach`: a destination in flight is that of one unanswered handler
- `Bridge.Owned.step`: an open file is at its path until its handler answers, and then nowhere
- `Bridge.settled_of_reach`: what a response says about the file, in a run in which no file is
  opened behind the response
-/

namespace OpenModel.FocBridge

structure Bridge where
  disk : Disk
  inFlight : List Location := []
  handlers : List Handler := []
  /-- an error that nobody listened for has ended the process -/
  crashed : Bool := false

inductive BridgeLabel
  | request (req : DownloadRequest)
  /-- handler `k` or its stream -/
  | run (k : Nat) (ev : BridgeEvent)
  deriving DecidableEq, Repr

def DownloadRequest.handler (req : DownloadRequest) (outPath : Location) : Handler where
  pieceCids := req.pieceCids
  outPath := outPath
  sha256 := req.sha256

namespace Bridge

/-- The `finally`, when the response is sent. -/
def release (s : Bridge) (h h' : Handler) : List Location :=
  if !h.answered && h'.answered then s.inFlight.filter (· ≠ h.outPath) else s.inFlight

def step (digest : Bytes → String) (app : App) (s : Bridge) : BridgeLabel → Option Bridge
  | .request req =>
    if s.crashed then none
    else
      match app.accept s.inFlight req with
      | .error _ => some s
      | .ok outPath =>
        some { s with
          inFlight := outPath :: s.inFlight
          handlers := s.handlers ++ [req.handler outPath] }
  | .run k ev =>
    if s.crashed then none
    else
      s.handlers[k]?.bind fun h =>
        (h.step digest app s.disk ev).map fun (h', disk) =>
          { disk
            inFlight := s.release h h'
            handlers := s.handlers.set k h'
            crashed := ev == .streamError && !h.listening }

def system (digest : Bytes → String) (app : App) : Transition.System Bridge BridgeLabel where
  init s := s.inFlight = [] ∧ s.handlers = [] ∧ s.crashed = false
  step := step digest app

end Bridge

-- ════════════════════════════════════════════════════════════════════════
-- Requests
-- ════════════════════════════════════════════════════════════════════════

section Accept

variable {app : App} {req : DownloadRequest} {inFlight : List Location} {outPath : Location}

theorem claim_iff {path : Location} :
    (if path ∈ inFlight then (.error 409 : Except Nat Location) else .ok path) = .ok outPath ↔
      path = outPath ∧ outPath ∉ inFlight := by
  split_ifs with hmem
  · simp only [false_iff, not_and, not_not]
    rintro rfl
    exact hmem
  · rw [Except.ok.injEq]
    exact ⟨fun heq => ⟨heq, heq ▸ hmem⟩, And.left⟩

/-- Where an accepted request goes depends on no other download. -/
theorem accept_eq_ok_iff : app.accept inFlight req = .ok outPath ↔
    app.accept [] req = .ok outPath ∧ outPath ∉ inFlight := by
  unfold App.accept
  generalize (if req.destPath = "" then some (app.modelsDir ++ ["foc-model-download.tar.gz"])
    else resolveSafeDest req.destPath app.modelsDir) = dest
  split_ifs
  case neg =>
    cases dest with
    | none => simp
    | some path =>
      dsimp only
      rw [claim_iff, claim_iff]
      simp
  all_goals simp

theorem accept_pieceCids (h : app.accept inFlight req = .ok outPath) :
    0 < req.pieceCids.length := by
  unfold App.accept at h
  generalize (if req.destPath = "" then some (app.modelsDir ++ ["foc-model-download.tar.gz"])
    else resolveSafeDest req.destPath app.modelsDir) = dest at h
  split_ifs at h with h1 h2 h3
  exact List.length_pos_iff.mpr h3

/-- **Conflict**: a request that would be accepted is refused while its destination is taken. -/
theorem accept_of_mem (h : app.accept [] req = .ok outPath) (hmem : outPath ∈ inFlight) :
    app.accept inFlight req = .error 409 := by
  unfold App.accept at h ⊢
  generalize (if req.destPath = "" then some (app.modelsDir ++ ["foc-model-download.tar.gz"])
    else resolveSafeDest req.destPath app.modelsDir) = dest at h ⊢
  split_ifs at h ⊢
  cases dest with
  | none => cases h
  | some path =>
    obtain rfl := (claim_iff.mp h).1
    exact if_pos hmem

end Accept

namespace Bridge

variable {digest : Bytes → String} {app : App} {s t : Bridge} {l : BridgeLabel}
  {h h' : Handler} {disk : Disk} {k : Nat} {ev : BridgeEvent} {f : List Location}

theorem step_cases (hstep : s.step digest app l = some t) :
    (∃ req status, l = .request req ∧ app.accept s.inFlight req = .error status ∧ t = s) ∨
    (∃ req outPath, l = .request req ∧ app.accept s.inFlight req = .ok outPath ∧
      t = { s with
        inFlight := outPath :: s.inFlight
        handlers := s.handlers ++ [req.handler outPath] }) ∨
    ∃ k ev h h' disk, l = .run k ev ∧ s.handlers[k]? = some h ∧
      h.step digest app s.disk ev = some (h', disk) ∧
      t = ⟨disk, s.release h h', s.handlers.set k h', ev == .streamError && !h.listening⟩ := by
  cases l with
  | request req =>
    simp only [step] at hstep
    split_ifs at hstep
    split at hstep
    · next status haccept =>
      cases hstep
      exact .inl ⟨req, status, rfl, haccept, rfl⟩
    · next outPath haccept =>
      cases hstep
      exact .inr (.inl ⟨req, outPath, rfl, haccept, rfl⟩)
  | run k ev =>
    simp only [step] at hstep
    split_ifs at hstep
    obtain ⟨h, hk, hmap⟩ := Option.bind_eq_some_iff.mp hstep
    obtain ⟨⟨h', disk⟩, hrun, rfl⟩ := Option.map_eq_some_iff.mp hmap
    exact .inr (.inr ⟨k, ev, h, h', disk, rfl, hk, hrun, rfl⟩)

/-- A step of handler `k`. -/
theorem run_of_step (hk : s.handlers[k]? = some h)
    (hstep : s.step digest app (.run k ev) = some t) :
    ∃ h' disk, h.step digest app s.disk ev = some (h', disk) ∧
      t = ⟨disk, s.release h h', s.handlers.set k h', ev == .streamError && !h.listening⟩ := by
  obtain ⟨_, _, heq, -, -⟩ | ⟨_, _, heq, -, -⟩ | ⟨j, ev', x, h', disk, heq, hj, hrun, rfl⟩ :=
    step_cases hstep
  · cases heq
  · cases heq
  · cases heq
    obtain rfl := Option.some.inj (hk.symm.trans hj)
    exact ⟨h', disk, hrun, rfl⟩

/-- The handlers after one of them took a step. -/
theorem handlers_set {j : Nat} {x : Handler}
    (hj : (s.handlers.set k h')[j]? = some x) :
    (j = k ∧ x = h') ∨ (j ≠ k ∧ s.handlers[j]? = some x) := by
  rw [List.getElem?_set] at hj
  split_ifs at hj with heq hlt
  · exact .inl ⟨heq.symm, (Option.some.inj hj).symm⟩
  · exact .inr ⟨Ne.symm heq, hj⟩

theorem handlers_set_self (hk : s.handlers[k]? = some h) :
    (s.handlers.set k h')[k]? = some h' := by
  rw [List.getElem?_set_self (List.getElem?_eq_some_iff.mp hk).1]

/-- The handlers after a request was accepted. -/
theorem handlers_append {j : Nat} {x : Handler} (hj : (s.handlers ++ [h])[j]? = some x) :
    s.handlers[j]? = some x ∨ (j = s.handlers.length ∧ x = h) := by
  rw [List.getElem?_append] at hj
  split_ifs at hj with hlt
  · exact .inl hj
  · rw [List.getElem?_singleton] at hj
    split_ifs at hj with hzero
    exact .inr ⟨by omega, (Option.some.inj hj).symm⟩

-- ════════════════════════════════════════════════════════════════════════
-- Destinations in flight
-- ════════════════════════════════════════════════════════════════════════

/-- Handler `k` is to answer and holds its destination. -/
def Active (s : Bridge) (k : Nat) (h : Handler) : Prop :=
  s.handlers[k]? = some h ∧ h.answered = false

structure Sound (digest : Bytes → String) (s : Bridge) : Prop where
  flight : ∀ l, l ∈ s.inFlight ↔ ∃ k h, s.Active k h ∧ h.outPath = l
  /-- the later one waits for the response to the earlier one -/
  ordered : ∀ j k h h', s.Active j h → s.handlers[k]? = some h' → h.outPath = h'.outPath → k ≤ j
  tracks : ∀ (k : Nat) (h : Handler), s.handlers[k]? = some h → h.Tracks
  streams : ∀ (k : Nat) (h : Handler), s.handlers[k]? = some h → h.Streams digest

theorem Sound.unique {j : Nat} (hs : s.Sound digest) (hj : s.Active j h) (hk : s.Active k h')
    (hpath : h.outPath = h'.outPath) : j = k :=
  le_antisymm (hs.ordered k j h' h hk hj.1 hpath.symm) (hs.ordered j k h h' hj hk.1 hpath)

theorem active_append {j : Nat} {x : Handler}
    (h : Active { s with inFlight := f, handlers := s.handlers ++ [h'] } j x) :
    s.Active j x ∨ (j = s.handlers.length ∧ x = h') :=
  (handlers_append h.1).imp_left fun hj => ⟨hj, h.2⟩

theorem Sound.request {req : DownloadRequest} {outPath : Location} (hs : s.Sound digest)
    (haccept : app.accept s.inFlight req = .ok outPath) :
    Sound digest { s with
      inFlight := outPath :: s.inFlight
      handlers := s.handlers ++ [req.handler outPath] } := by
  have hfree := (accept_eq_ok_iff.mp haccept).2
  have hnew : Active { s with
      inFlight := outPath :: s.inFlight
      handlers := s.handlers ++ [req.handler outPath] } s.handlers.length (req.handler outPath) :=
    ⟨List.getElem?_concat_length, rfl⟩
  have hold {k : Nat} {h : Handler} (hk : s.Active k h) : h.outPath ≠ outPath := by
    rintro rfl
    exact hfree ((hs.flight _).mpr ⟨k, h, hk, rfl⟩)
  refine ⟨fun l => ?_, fun j k h h' hj hk hpath => ?_, fun k h hk => ?_, fun k h hk => ?_⟩
  · rw [List.mem_cons, hs.flight]
    constructor
    · rintro (rfl | ⟨k, h, hk, rfl⟩)
      · exact ⟨_, _, hnew, rfl⟩
      · exact ⟨k, h, ⟨List.getElem?_append_left (List.getElem?_eq_some_iff.mp hk.1).1 ▸ hk.1, hk.2⟩, rfl⟩
    · rintro ⟨k, h, hk, rfl⟩
      obtain hk | ⟨-, rfl⟩ := active_append hk
      · exact .inr ⟨k, h, hk, rfl⟩
      · exact .inl rfl
  · obtain hj | ⟨rfl, rfl⟩ := active_append hj
    · obtain hk | ⟨rfl, rfl⟩ := handlers_append hk
      · exact hs.ordered j k h h' hj hk hpath
      · exact absurd hpath (hold hj)
    · obtain hk | ⟨rfl, rfl⟩ := handlers_append hk
      · exact (List.getElem?_eq_some_iff.mp hk).1.le
      · exact le_rfl
  · obtain hk | ⟨-, rfl⟩ := handlers_append hk
    · exact hs.tracks k h hk
    · exact Handler.tracks_new (accept_pieceCids haccept)
  · obtain hk | ⟨-, rfl⟩ := handlers_append hk
    · exact hs.streams k h hk
    · exact Handler.streams_new

theorem active_run {j : Nat} {x : Handler} {crashed : Bool} (hk : s.handlers[k]? = some h) :
    Active ⟨disk, f, s.handlers.set k h', crashed⟩ j x ↔
      (j = k ∧ x = h' ∧ h'.answered = false) ∨ (j ≠ k ∧ s.Active j x) := by
  constructor
  · rintro ⟨hj, hx⟩
    obtain ⟨rfl, rfl⟩ | ⟨hne, hj⟩ := handlers_set hj
    · exact .inl ⟨rfl, rfl, hx⟩
    · exact .inr ⟨hne, hj, hx⟩
  · rintro (⟨rfl, rfl, hx⟩ | ⟨hne, hj, hx⟩)
    · exact ⟨handlers_set_self hk, hx⟩
    · exact ⟨(List.getElem?_set_ne (Ne.symm hne)).trans hj, hx⟩

/-- What is in flight after a step of a handler. -/
theorem mem_release (hs : s.Sound digest) (hk : s.handlers[k]? = some h)
    (hrun : h.step digest app s.disk ev = some (h', disk)) (l : Location) :
    l ∈ s.release h h' ↔ (h'.answered = false ∧ h'.outPath = l) ∨
      ∃ j x, j ≠ k ∧ s.Active j x ∧ x.outPath = l := by
  have hpath := (Handler.request_of_step hrun).1
  unfold release
  cases ha : h.answered with
  | true =>
    rw [Handler.answered_of_step ha hrun]
    simp only [Bool.not_true, Bool.false_and, Bool.false_eq_true, if_false, Bool.true_eq_false,
      false_and, false_or, hs.flight]
    constructor
    · rintro ⟨j, x, hj, hx⟩
      refine ⟨j, x, ?_, hj, hx⟩
      rintro rfl
      obtain rfl := Option.some.inj (hk.symm.trans hj.1)
      exact absurd ha (by simp [hj.2])
    · rintro ⟨j, x, -, hj, hx⟩
      exact ⟨j, x, hj, hx⟩
  | false =>
    have hactive : s.Active k h := ⟨hk, ha⟩
    cases ha' : h'.answered with
    | true =>
      simp only [Bool.not_false, Bool.and_self, if_true, List.mem_filter, decide_eq_true_eq,
        Bool.true_eq_false, false_and, false_or, hs.flight]
      constructor
      · rintro ⟨⟨j, x, hj, rfl⟩, hne⟩
        refine ⟨j, x, ?_, hj, rfl⟩
        rintro rfl
        exact hne (by rw [Option.some.inj (hk.symm.trans hj.1)])
      · rintro ⟨j, x, hjk, hj, rfl⟩
        exact ⟨⟨j, x, hj, rfl⟩, fun heq => hjk (hs.unique hj hactive heq)⟩
    | false =>
      simp only [Bool.and_false, Bool.false_eq_true, if_false, true_and, hs.flight, hpath]
      constructor
      · rintro ⟨j, x, hj, rfl⟩
        by_cases hjk : j = k
        · subst hjk
          exact .inl (by rw [Option.some.inj (hk.symm.trans hj.1)])
        · exact .inr ⟨j, x, hjk, hj, rfl⟩
      · rintro (rfl | ⟨j, x, -, hj, hx⟩)
        · exact ⟨k, h, hactive, rfl⟩
        · exact ⟨j, x, hj, hx⟩

theorem Sound.run (hs : s.Sound digest) (hk : s.handlers[k]? = some h)
    (hrun : h.step digest app s.disk ev = some (h', disk)) {crashed : Bool} :
    Sound digest ⟨disk, s.release h h', s.handlers.set k h', crashed⟩ := by
  have hpath := (Handler.request_of_step hrun).1
  have hbefore (ha : h'.answered = false) : s.Active k h := by
    refine ⟨hk, by_contra fun hnot => ?_⟩
    rw [Handler.answered_of_step (by simpa using hnot) hrun] at ha
    cases ha
  refine ⟨fun l => ?_, fun i j x y hi hj hpaths => ?_, fun j x hj => ?_, fun j x hj => ?_⟩
  · rw [mem_release hs hk hrun]
    constructor
    · rintro (⟨ha, rfl⟩ | ⟨j, x, hjk, hj, rfl⟩)
      · exact ⟨k, h', (active_run hk).mpr (.inl ⟨rfl, rfl, ha⟩), rfl⟩
      · exact ⟨j, x, (active_run hk).mpr (.inr ⟨hjk, hj⟩), rfl⟩
    · rintro ⟨j, x, hj, rfl⟩
      obtain ⟨rfl, rfl, ha⟩ | ⟨hjk, hj⟩ := (active_run hk).mp hj
      · exact .inl ⟨ha, rfl⟩
      · exact .inr ⟨j, x, hjk, hj, rfl⟩
  · obtain ⟨rfl, rfl, ha⟩ | ⟨hik, hi'⟩ := (active_run hk).mp hi
    · obtain ⟨rfl, -⟩ | ⟨hjk, hj'⟩ := handlers_set hj
      · exact le_rfl
      · exact hs.ordered _ j h y (hbefore ha) hj' (hpath ▸ hpaths)
    · obtain ⟨rfl, rfl⟩ | ⟨hjk, hj'⟩ := handlers_set hj
      · exact hs.ordered i _ x h hi' hk (hpath ▸ hpaths)
      · exact hs.ordered i j x y hi' hj' hpaths
  · obtain ⟨-, rfl⟩ | ⟨-, hj⟩ := handlers_set hj
    · exact (hs.tracks k h hk).step hrun
    · exact hs.tracks j x hj
  · obtain ⟨-, rfl⟩ | ⟨-, hj⟩ := handlers_set hj
    · exact (hs.streams k h hk).step hrun
    · exact hs.streams j x hj

theorem Sound.step (hs : s.Sound digest) (hstep : s.step digest app l = some t) :
    t.Sound digest := by
  obtain ⟨req, status, -, -, rfl⟩ | ⟨req, outPath, -, haccept, rfl⟩ |
    ⟨k, ev, h, h', disk, -, hk, hrun, rfl⟩ := step_cases hstep
  · exact hs
  · exact hs.request haccept
  · exact hs.run hk hrun

/-- **In flight**: a destination is taken by one handler that has not answered. -/
theorem sound_of_reach {ok : Bridge → BridgeLabel → Prop} (h : (system digest app).Reach ok s) :
    s.Sound digest := by
  refine h.invariant (fun s hs => ?_) fun s l t hs _ hstep => hs.step hstep
  obtain ⟨hflight, hhandlers, -⟩ := hs
  refine ⟨fun l => ?_, fun j k h h' hj => ?_, fun k h hk => ?_, fun k h hk => ?_⟩
  · rw [hflight]
    refine ⟨fun hl => absurd hl List.not_mem_nil, ?_⟩
    rintro ⟨k, h, ⟨hk, -⟩, -⟩
    simp [hhandlers] at hk
  · simp [Active, hhandlers] at hj
  · simp [hhandlers] at hk
  · simp [hhandlers] at hk

end Bridge

-- ════════════════════════════════════════════════════════════════════════
-- Open files
-- ════════════════════════════════════════════════════════════════════════

namespace Handler

variable {digest : Bytes → String} {app : App} {h h' x : Handler} {disk disk' : Disk}
  {ev : BridgeEvent}

/-- Until the response, the open file is at its path and holds what was written. -/
def AtPath (h : Handler) (disk : Disk) : Prop :=
  h.answered = false → ∀ number, h.phase = .opened number ∨ h.phase = .closed number →
    disk.file h.outPath = some (number, h.written)

theorem answered_eq_false {pc : BridgePc} (hpc : h.pc = pc)
    (hnot : ∀ response, pc ≠ .responded response) : h.answered = false := by
  unfold answered
  split
  · next response heq => exact absurd (hpc.symm.trans heq) (hnot response)
  · rfl

theorem AtPath.step (hp : h.AtPath disk) (ht : h.Tracks)
    (hstep : h.step digest app disk ev = some (h', disk')) : h'.AtPath disk' := by
  cases stepped_of_step hstep with
  | creates hpc =>
    intro _ number hphase
    rcases hphase with hphase | hphase <;> cases hphase
  | retries hpc | streams hpc | refused hpc => exact fun _ => hp (answered_eq_false hpc nofun)
  | throws hpc =>
    rcases hpc with hpc | ⟨part, hpc⟩ | ⟨part, fromSecondary, hpc⟩ | hpc
    · exact fun _ => hp (answered_eq_false hpc nofun)
    · exact fun _ => hp (answered_eq_false hpc nofun)
    · exact fun _ => hp (answered_eq_false hpc nofun)
    · exact fun _ => hp (answered_eq_false hpc nofun)
  | taps hpc => exact fun _ => hp (answered_eq_false hpc nofun)
  | endsPart hpc =>
    have hfile := hp (answered_eq_false hpc nofun)
    unfold endPart
    dsimp only
    split_ifs
    · exact fun _ => hfile
    · exact fun _ => hfile
    · exact fun _ => hfile
  | finishes hpc hphase =>
    intro _ number hphase'
    obtain rfl : _ = number := StreamPhase.closed.inj (hphase'.resolve_left StreamPhase.noConfusion)
    exact hp (answered_eq_false hpc nofun) _ (.inl hphase)
  | verifies hpc =>
    have hfile := hp (answered_eq_false hpc nofun)
    unfold verify
    split_ifs
    · exact fun _ => hfile
    · exact fun _ => hfile
  | unlinks | keeps => exact fun ha => Bool.noConfusion ha
  | opens hphase =>
    intro _ number hphase'
    obtain rfl : _ = number := by
      rcases hphase' with hphase' | hphase'
      · exact StreamPhase.opened.inj hphase'
      · exact absurd hphase' StreamPhase.noConfusion
    show _ = some (_, h.written)
    rw [ht.unopened (.inr hphase)]
    exact Disk.openFile_self
  | @flushes file count hphase =>
    intro ha number hphase'
    obtain rfl : file = number := by
      rcases hphase' with hphase' | hphase'
      · exact StreamPhase.opened.inj (hphase.symm.trans hphase')
      · exact absurd (hphase.symm.trans hphase') StreamPhase.noConfusion
    exact Disk.writeAt_append (hp ha file (.inl hphase))
  | errs =>
    intro _ number hphase
    rcases hphase with hphase | hphase <;> cases hphase

/-- The open file is at its path and holds what was written, or it has no path. -/
structure Holds (h : Handler) (disk : Disk) : Prop where
  file : h.AtPath disk
  gone : h.answered → ∀ number, h.phase = .opened number →
    ∀ l content, disk.file l ≠ some (number, content)
  lt_next : ∀ number, h.phase = .opened number → number < disk.next

/-- **Open files**: a step of the handler keeps hold of its own, if the file is not opened behind
the response and the removal does not fail. -/
theorem Holds.step (hh : h.Holds disk) (ht : h.Tracks)
    (hopened : ev = .opened → h.answered = false)
    (hremoved : ∀ message response, ev = .fails message → h.pc ≠ .unlinking response)
    (hstep : h.step digest app disk ev = some (h', disk')) : h'.Holds disk' := by
  have hfile := hh.file.step ht hstep
  cases stepped_of_step hstep with
  | creates hpc => exact ⟨hfile, nofun, nofun⟩
  | retries | streams | refused | throws =>
    exact ⟨hfile, fun ha => Bool.noConfusion ha, hh.lt_next⟩
  | taps hpc =>
    refine ⟨hfile, fun ha => ?_, hh.lt_next⟩
    exact absurd ((answered_eq_false hpc nofun).symm.trans ha) Bool.noConfusion
  | endsPart hpc =>
    unfold endPart at hfile ⊢
    dsimp only at hfile ⊢
    split_ifs at hfile ⊢
    · exact ⟨hfile, fun ha => Bool.noConfusion ha, hh.lt_next⟩
    · exact ⟨hfile, fun ha => Bool.noConfusion ha, hh.lt_next⟩
    · exact ⟨hfile, fun ha => Bool.noConfusion ha, hh.lt_next⟩
  | finishes hpc hphase => exact ⟨hfile, nofun, nofun⟩
  | verifies hpc =>
    obtain ⟨number, hphase⟩ := ht.finished (by rw [hpc]; rfl)
    have hclosed (number' : Nat) : h.phase ≠ .opened number' := by
      rw [hphase]
      nofun
    unfold verify at hfile ⊢
    split_ifs at hfile ⊢
    · exact ⟨hfile, fun _ number' hphase' => absurd hphase' (hclosed number'), hh.lt_next⟩
    · exact ⟨hfile, fun _ number' hphase' => absurd hphase' (hclosed number'), hh.lt_next⟩
  | unlinks hpc =>
    refine ⟨hfile, fun _ number hphase l content hl => ?_, hh.lt_next⟩
    have hown := hh.file (answered_eq_false hpc nofun) number (.inl hphase)
    have hpath := disk.inj l h.outPath number content h.written (Disk.unlink_numbers hl) hown
    rw [hpath, Disk.unlink_self] at hl
    cases hl
  | keeps hpc => exact absurd hpc (hremoved _ _ rfl)
  | opens hphase =>
    refine ⟨hfile, fun ha => ?_, fun number hphase' => ?_⟩
    · exact absurd ((hopened rfl).symm.trans ha) Bool.noConfusion
    · obtain rfl := StreamPhase.opened.inj hphase'
      exact (disk.openFile h.outPath).2.lt_next _ _ _ Disk.openFile_self
  | flushes hphase =>
    refine ⟨hfile, fun ha number hphase' l content hl => ?_, fun number hphase' =>
      (hh.lt_next number hphase').trans_le Disk.le_next_writeAt⟩
    obtain ⟨content', hold⟩ := Disk.writeAt_numbers hl
    exact hh.gone ha number hphase' l content' hold
  | errs => exact ⟨hfile, fun _ number hphase => by simp at hphase, nofun⟩

/-- The handler of another destination keeps hold of its file. -/
theorem Holds.frame (hx : x.Holds disk)
    (hne : x.answered = false → disk'.file x.outPath = disk.file x.outPath)
    (hstep : h.step digest app disk ev = some (h', disk')) : x.Holds disk' := by
  refine ⟨fun ha number hphase => ?_, fun ha number hphase l content hfile => ?_,
    fun number hphase => (hx.lt_next number hphase).trans_le (next_le_of_step hstep)⟩
  · rw [hne ha]
    exact hx.file ha number hphase
  · obtain ⟨content', hold⟩ | hnew := numbers_of_step hstep hfile
    · exact hx.gone ha number hphase l content' hold
    · exact absurd (hx.lt_next number hphase) (not_lt.mpr hnew)

/-- Behind the response nothing changes on the disk, if the file is not opened there. -/
theorem Holds.disk_eq (hh : h.Holds disk) (ha : h.answered) (hopened : ev ≠ .opened)
    (hstep : h.step digest app disk ev = some (h', disk')) : disk' = disk := by
  have hpc := (pc_of_answered ha hstep).1
  cases stepped_of_step hstep with
  | unlinks hunlinking =>
    rw [hunlinking] at hpc
    cases hpc
  | opens => exact absurd rfl hopened
  | flushes hphase =>
    exact Disk.writeAt_of_gone fun content => hh.gone ha _ hphase h.outPath content
  | _ => rfl

end Handler

-- ════════════════════════════════════════════════════════════════════════
-- Responses
-- ════════════════════════════════════════════════════════════════════════

namespace Handler

variable {digest : Bytes → String} {app : App} {h h' : Handler} {disk disk' : Disk}
  {ev : BridgeEvent} {response : BridgeResponse}

/-- **The response** is sent when the digest was compared, or behind a removal. -/
theorem responds_of_step (ha : h.answered = false)
    (hstep : h.step digest app disk ev = some (h', disk')) (hpc : h'.pc = .responded response) :
    (∃ number content, h.pc = .stat ∧ disk.file h.outPath = some (number, content) ∧
      h' = h.verify digest content.length ∧ disk' = disk) ∨
    (h.pc = .unlinking response ∧
      (disk' = disk.unlink h.outPath ∨ ∃ message, ev = .fails message)) := by
  have hsame (heq : h'.pc = h.pc) : False := by
    rw [answered, ← heq, hpc] at ha
    cases ha
  cases stepped_of_step hstep with
  | creates | retries | streams | refused | throws => cases hpc
  | taps => exact (hsame rfl).elim
  | @endsPart part =>
    unfold endPart at hpc
    dsimp only at hpc
    split_ifs at hpc
    all_goals cases hpc
  | finishes => cases hpc
  | verifies hstat hfile => exact .inl ⟨_, _, hstat, hfile, rfl, rfl⟩
  | unlinks hunlinking =>
    cases hpc
    exact .inr ⟨hunlinking, .inl rfl⟩
  | keeps hunlinking =>
    cases hpc
    exact .inr ⟨hunlinking, .inr ⟨_, rfl⟩⟩
  | opens | flushes | errs => exact (hsame rfl).elim

/-- **A download** is the bodies of its parts. -/
theorem Holds.downloaded {path : Location} {size parts : Nat} {sha256 : String} {verified : Bool}
    (hh : h.Holds disk) (ht : h.Tracks) (hs : h.Streams digest) (ha : h.answered = false)
    (hstep : h.step digest app disk ev = some (h', disk'))
    (hpc : h'.pc = .responded (.downloaded path size parts sha256 verified)) :
    path = h'.outPath ∧ parts = h'.pieceCids.length ∧ h'.bodies.length = h'.pieceCids.length ∧
      ∃ number content, disk'.file path = some (number, content) ∧
        content = h'.bodies.flatten.flatten ∧ size = content.length ∧ sha256 = digest content ∧
        (verified = true ↔
          ∃ expected, h'.sha256 = some expected ∧ digest content = lower expected) := by
  have hs' := hs.step hstep
  obtain ⟨number, content, hstat, hfile, rfl, rfl⟩ | ⟨hunlinking, -⟩ :=
    responds_of_step ha hstep hpc
  swap
  · exact absurd rfl (ht.unlinking _ hunlinking)
  obtain ⟨number', hphase⟩ := ht.finished (by rw [hstat]; rfl)
  have hcontent : content = h.written := by
    have := hfile.symm.trans (hh.file ha number' (.inr hphase))
    cases this
    rfl
  have hhashed : h.hashed = content := by
    rw [hcontent, show h.hashed = h.written ++ h.queued from hs.hashed, (ht.closed _ hphase).1,
      List.append_nil]
  have hbodies : h.hashed = h.bodies.flatten.flatten := by
    rw [ht.received, ht.between (by rw [hstat]; rfl), List.append_nil]
  unfold verify at hpc hs' ⊢
  split_ifs at hpc hs' ⊢ with hany
  · cases hpc
    refine ⟨rfl, rfl, ht.complete (by rw [hstat]; rfl), number, content, hfile,
      hhashed.symm.trans hbodies, rfl, by rw [hhashed], ?_⟩
    rw [Option.isSome_iff_exists]
    refine exists_congr fun expected => ?_
    constructor
    · intro hexpected
      have hverified := hs'.verified rfl expected hexpected
      exact ⟨hexpected, hhashed ▸ hverified⟩
    · exact And.left

end Handler

namespace Bridge

variable {digest : Bytes → String} {app : App} {s t : Bridge} {l : BridgeLabel}
  {h h' : Handler} {disk : Disk} {k : Nat} {ev : BridgeEvent}

/-- The removal of a file does not fail. -/
def removes (s : Bridge) : BridgeLabel → Bool
  | .run k (.fails _) => s.handlers[k]?.all fun h =>
    match h.pc with
    | .unlinking _ => false
    | _ => true
  | _ => true

/-- The file is opened before the response, so before it is removed. -/
def punctual (s : Bridge) : BridgeLabel → Bool
  | .run k .opened => s.handlers[k]?.all fun h => !h.answered
  | _ => true

/-- Every open file is at its path until its handler has answered, and then nowhere. -/
def Owned (s : Bridge) : Prop := ∀ (k : Nat) (h : Handler), s.handlers[k]? = some h → h.Holds s.disk

theorem Owned.step (ho : s.Owned) (hs : s.Sound digest) (hremoves : s.removes l)
    (hpunctual : s.punctual l) (hstep : s.step digest app l = some t) : t.Owned := by
  obtain ⟨req, status, -, -, rfl⟩ | ⟨req, outPath, -, haccept, rfl⟩ |
    ⟨k, ev, h, h', disk, rfl, hk, hrun, rfl⟩ := step_cases hstep
  · exact ho
  · intro k h hk
    obtain hk | ⟨-, rfl⟩ := handlers_append hk
    · exact ho k h hk
    · exact ⟨nofun, nofun, nofun⟩
  · have hopened : ev = .opened → h.answered = false := by
      rintro rfl
      simpa [punctual, hk] using hpunctual
    intro j x hj
    obtain ⟨-, rfl⟩ | ⟨hjk, hj⟩ := handlers_set hj
    · refine (ho k h hk).step (hs.tracks k h hk) hopened ?_ hrun
      rintro message response rfl hpc
      simp [removes, hk, hpc] at hremoves
    · refine (ho j x hj).frame (fun hx => ?_) hrun
      cases ha : h.answered with
      | true =>
        rw [(ho k h hk).disk_eq ha (fun hev => absurd (hopened hev) (by simp [ha])) hrun]
      | false =>
        exact Handler.file_of_step (fun hpath => hjk (hs.unique ⟨hj, hx⟩ ⟨hk, ha⟩ hpath)) hrun

theorem owned_of_reach
    (hreach : (system digest app).Reach (fun s l => s.removes l ∧ s.punctual l) s) : s.Owned := by
  refine hreach.invariant_of (J := Sound digest) (fun s hs => sound_of_reach hs) (fun s hs => ?_)
    fun s l t hs ho hok hstep => ho.step hs hok.1 hok.2 hstep
  intro k h hk
  simp [hs.2.1] at hk

/-- What a step means for the files and the responses. -/
structure Outcome (digest : Bytes → String) (s : Bridge) (l : BridgeLabel) (t : Bridge) : Prop where
  /-- the file behind a 200 is the bodies of all parts in their order -/
  downloaded : ∀ k h h' path size parts sha256 verified, s.Active k h → t.handlers[k]? = some h' →
    h'.pc = .responded (.downloaded path size parts sha256 verified) →
      path = h'.outPath ∧ parts = h'.pieceCids.length ∧ h'.bodies.length = h'.pieceCids.length ∧
      ∃ number content, t.disk.file path = some (number, content) ∧
        content = h'.bodies.flatten.flatten ∧ size = content.length ∧ sha256 = digest content ∧
        (verified = true ↔ ∃ expected, h'.sha256 = some expected ∧ digest content = lower expected)
  /-- with any other response there is no file -/
  cleaned : ∀ k h h' response, s.Active k h → t.handlers[k]? = some h' →
    h'.pc = .responded response → response.status ≠ 200 → t.disk.file h'.outPath = none
  /-- the handler touches its own file, until it has answered -/
  confined : ∀ k ev h, l = .run k ev → s.handlers[k]? = some h →
    ∀ path, path ≠ h.outPath ∨ h.answered → t.disk.file path = s.disk.file path
  /-- a request touches none -/
  idle : ∀ req, l = .request req → t.disk = s.disk

/-- **Responses**: where the file is opened before the response, a 200 is behind the whole file,
and behind every other response there is none. -/
theorem outcome_of_step (hs : s.Sound digest) (ho : s.Owned) (hremoves : s.removes l)
    (hpunctual : s.punctual l) (hstep : s.step digest app l = some t) :
    Outcome digest s l t := by
  have hsame {j : Nat} {x x' : Handler} {response : BridgeResponse} (hj : s.Active j x)
      (hj' : s.handlers[j]? = some x') (hpc : x'.pc = .responded response) : False := by
    obtain rfl := Option.some.inj (hj.1.symm.trans hj')
    have ha := hj.2
    rw [Handler.answered, hpc] at ha
    cases ha
  obtain ⟨req, status, rfl, -, rfl⟩ | ⟨req, outPath, rfl, haccept, rfl⟩ |
    ⟨k, ev, h, h', disk, rfl, hk, hrun, rfl⟩ := step_cases hstep
  · refine ⟨?_, ?_, fun _ _ _ heq => BridgeLabel.noConfusion heq, fun _ _ => rfl⟩
    · intro j x x' path size parts sha256 verified hj hj' hpc
      exact (hsame hj hj' hpc).elim
    · intro j x x' response hj hj' hpc
      exact (hsame hj hj' hpc).elim
  · have hleft {j : Nat} {x x' : Handler} (hj : s.Active j x)
        (hj' : (s.handlers ++ [req.handler outPath])[j]? = some x') : s.handlers[j]? = some x' := by
      rwa [List.getElem?_append_left (List.getElem?_eq_some_iff.mp hj.1).1] at hj'
    refine ⟨?_, ?_, fun _ _ _ heq => BridgeLabel.noConfusion heq, fun _ _ => rfl⟩
    · intro j x x' path size parts sha256 verified hj hj' hpc
      exact (hsame hj (hleft hj hj') hpc).elim
    · intro j x x' response hj hj' hpc
      exact (hsame hj (hleft hj hj') hpc).elim
  · refine ⟨?_, ?_, ?_, fun _ heq => BridgeLabel.noConfusion heq⟩
    · intro j x x' path size parts sha256 verified hj hj' hpc
      obtain ⟨rfl, rfl⟩ | ⟨-, hj'⟩ := handlers_set hj'
      · obtain rfl := Option.some.inj (hk.symm.trans hj.1)
        exact (ho _ _ hk).downloaded (hs.tracks _ _ hk) (hs.streams _ _ hk) hj.2 hrun hpc
      · exact (hsame hj hj' hpc).elim
    · intro j x x' response hj hj' hpc hstatus
      obtain ⟨rfl, rfl⟩ | ⟨-, hj'⟩ := handlers_set hj'
      · obtain rfl := Option.some.inj (hk.symm.trans hj.1)
        rw [(Handler.request_of_step hrun).1]
        obtain ⟨number, content, -, -, rfl, rfl⟩ | ⟨hunlinking, rfl | ⟨message, rfl⟩⟩ :=
          Handler.responds_of_step hj.2 hrun hpc
        · unfold Handler.verify at hpc
          split_ifs at hpc
          cases hpc
          exact absurd rfl hstatus
        · exact Disk.unlink_self
        · simp [removes, hk, hunlinking] at hremoves
      · exact (hsame hj hj' hpc).elim
    · intro j ev' x heq hj path hpath
      cases heq
      obtain rfl := Option.some.inj (hk.symm.trans hj)
      rcases hpath with hpath | ha
      · exact Handler.file_of_step hpath hrun
      · rw [(ho _ _ hk).disk_eq ha ?_ hrun]
        rintro rfl
        simp [punctual, hk, ha] at hpunctual

/-- Handler `k` is the last one for its destination. -/
def Latest (s : Bridge) (k : Nat) (h : Handler) : Prop :=
  s.handlers[k]? = some h ∧
    ∀ j h', s.handlers[j]? = some h' → h'.outPath = h.outPath → j ≤ k

/-- What the responses say about the files. -/
structure Settled (digest : Bytes → String) (app : App) (s : Bridge) : Prop where
  /-- the file behind a 200 is the bodies of all parts in their order -/
  downloaded : ∀ k h path size parts sha256 verified, s.Latest k h →
    h.pc = .responded (.downloaded path size parts sha256 verified) →
      path = h.outPath ∧ parts = h.pieceCids.length ∧ h.bodies.length = h.pieceCids.length ∧
      ∃ number content, s.disk.file path = some (number, content) ∧
        content = h.bodies.flatten.flatten ∧ size = content.length ∧ sha256 = digest content ∧
        (verified = true ↔ ∃ expected, h.sha256 = some expected ∧ digest content = lower expected)
  /-- behind any other response there is no file -/
  cleaned : ∀ k h response, s.Latest k h → h.pc = .responded response → response.status ≠ 200 →
    s.disk.file h.outPath = none
  /-- a request for a destination in flight is refused -/
  exclusive : ∀ k h req, s.Active k h → app.accept [] req = .ok h.outPath →
    app.accept s.inFlight req = .error 409 ∧ ∀ t, s.step digest app (.request req) = some t → t = s

/-- A response was sent by the step, or stands as it stood. -/
theorem latest_of_step {response : BridgeResponse} (hs : s.Sound digest) (hout : Outcome digest s l t)
    (hstep : s.step digest app l = some t) (hk : t.Latest k h')
    (hpc : h'.pc = .responded response) :
    (∃ h, s.Active k h) ∨
      ∃ h, s.Latest k h ∧ h.pc = h'.pc ∧ h.bodies = h'.bodies ∧ h.outPath = h'.outPath ∧
        h.pieceCids = h'.pieceCids ∧ h.sha256 = h'.sha256 ∧
        t.disk.file h'.outPath = s.disk.file h'.outPath := by
  obtain ⟨req, status, rfl, -, rfl⟩ | ⟨req, outPath, rfl, haccept, rfl⟩ |
    ⟨k', ev, x, x', disk, rfl, hx, hrun, rfl⟩ := step_cases hstep
  · exact .inr ⟨h', hk, rfl, rfl, rfl, rfl, rfl, rfl⟩
  · obtain hold | ⟨-, rfl⟩ := handlers_append hk.1
    · refine .inr ⟨h', ⟨hold, fun j y hj => hk.2 j y ?_⟩, rfl, rfl, rfl, rfl, rfl, rfl⟩
      exact (List.getElem?_append_left (List.getElem?_eq_some_iff.mp hj).1).trans hj
    · cases hpc
  · obtain ⟨hpath, hcids, hsha⟩ := Handler.request_of_step hrun
    have hlater {j : Nat} {y : Handler} (hj : s.handlers[j]? = some y)
        (hy : y.outPath = h'.outPath) : j ≤ k := by
      by_cases hjk : j = k'
      · subst hjk
        obtain rfl := Option.some.inj (hx.symm.trans hj)
        exact hk.2 _ x' (handlers_set_self hx) (hpath.trans hy)
      · exact hk.2 j y ((List.getElem?_set_ne (Ne.symm hjk)).trans hj) hy
    obtain ⟨rfl, rfl⟩ | ⟨hne, hold⟩ := handlers_set hk.1
    · cases ha : x.answered with
      | false => exact .inl ⟨x, hx, ha⟩
      | true =>
        obtain ⟨hsame, hbodies⟩ := Handler.pc_of_answered ha hrun
        refine .inr ⟨x, ⟨hx, fun j y hj hy => hlater hj (hy.trans hpath.symm)⟩, hsame.symm,
          hbodies.symm, hpath.symm, hcids.symm, hsha.symm, ?_⟩
        exact hout.confined _ ev x rfl hx _ (.inr ha)
    · refine .inr ⟨h', ⟨hold, fun j y hj hy => hlater hj hy⟩, rfl, rfl, rfl, rfl, rfl, ?_⟩
      refine hout.confined k' ev x rfl hx _ ?_
      by_cases hpaths : h'.outPath = x.outPath
      · refine .inr (by_contra fun ha => hne ?_)
        exact le_antisymm (hs.ordered k' k x h' ⟨hx, by simpa using ha⟩ hold hpaths.symm)
          (hlater hx hpaths.symm)
      · exact .inl hpaths

theorem settled_of_reach
    (hreach : (system digest app).Reach (fun s l => s.removes l ∧ s.punctual l) s) :
    Settled digest app s := by
  have hexclusive {s : Bridge} (hs : s.Sound digest) {k : Nat} {h : Handler} {req : DownloadRequest}
      (hk : s.Active k h) (hreq : app.accept [] req = .ok h.outPath) :
      app.accept s.inFlight req = .error 409 ∧
        ∀ t, s.step digest app (.request req) = some t → t = s := by
    have hconflict := accept_of_mem hreq ((hs.flight _).mpr ⟨k, h, hk, rfl⟩)
    refine ⟨hconflict, fun t hstep => ?_⟩
    obtain ⟨_, _, _, _, rfl⟩ | ⟨_, _, heq, haccept, _⟩ | ⟨_, _, _, _, _, heq, _⟩ := step_cases hstep
    · rfl
    · cases heq
      rw [hconflict] at haccept
      cases haccept
    · cases heq
  refine hreach.invariant_of (J := (system digest app).Reach fun s l => s.removes l ∧ s.punctual l)
    (fun s hs => hs) (fun s hs => ?_) fun s l t hs hi hok hstep => ?_
  · have hnone {k : Nat} {h : Handler} (hk : s.handlers[k]? = some h) : False := by
      simp [hs.2.1] at hk
    exact ⟨fun k h path size parts sha256 verified hk => (hnone hk.1).elim,
      fun k h response hk => (hnone hk.1).elim, fun k h req hk => (hnone hk.1).elim⟩
  · have hsound : s.Sound digest := sound_of_reach hs
    have hout := outcome_of_step hsound (owned_of_reach hs) hok.1 hok.2 hstep
    refine ⟨fun k h' path size parts sha256 verified hk hpc => ?_,
      fun k h' response hk hpc hstatus => ?_, fun k h req => hexclusive (hsound.step hstep)⟩
    · obtain ⟨h, hactive⟩ | ⟨h, hlatest, hpc', hbodies, hpath, hcids, hsha, hfile⟩ :=
        latest_of_step hsound hout hstep hk hpc
      · exact hout.downloaded k h h' path size parts sha256 verified hactive hk.1 hpc
      · obtain ⟨rfl, hparts, hlen, number, content, hcontent, hrest⟩ :=
          hi.downloaded k h path size parts sha256 verified hlatest (hpc'.trans hpc)
        rw [← hcids, ← hbodies, ← hsha]
        refine ⟨hpath, hparts, hlen, number, content, ?_, hrest⟩
        rw [hpath, hfile, ← hpath]
        exact hcontent
    · obtain ⟨h, hactive⟩ | ⟨h, hlatest, hpc', -, hpath, -, -, hfile⟩ :=
        latest_of_step hsound hout hstep hk hpc
      · exact hout.cleaned k h h' response hactive hk.1 hpc hstatus
      · rw [hfile, ← hpath]
        exact hi.cleaned k h response hlatest (hpc'.trans hpc) hstatus

/-- No file, and nothing going on. -/
def empty : Bridge where
  disk := { file := fun _ => none, next := 0, lt_next := nofun, inj := nofun }

theorem init_empty : (system digest app).init empty := ⟨rfl, rfl, rfl⟩

def modelsApp : App where
  modelsDir := ["models"]

def weightsDigest (content : Bytes) : String :=
  if content = [1, 2] then "a12871fee210fb8619291eaea194581cbd2531e4b23759d225f6806923f63222"
  else "e3b0c44298fc1c149afbf4c8996fb92427ae41e4649b934ca495991b7852b855"

def weightsRequest : DownloadRequest where
  pieceCids := ["baga1"]
  destPath := "weights"
  sha256 := some "A12871FEE210FB8619291EAEA194581CBD2531E4B23759D225F6806923F63222"

/-- Both providers refuse, the file is removed, and a second request finds the secondary one. -/
def secondTry : List BridgeLabel :=
  [.request weightsRequest, .run 0 .go, .run 0 .opened, .run 0 (.answers 404),
    .run 0 (.answers 404), .run 0 .go, .request weightsRequest, .run 1 .go,
    .run 1 (.answers 404), .run 1 (.answers 200), .run 1 (.chunk [1, 2]), .run 1 .opened,
    .run 1 (.flush 2), .run 1 .bodyEnds, .run 1 .go, .run 1 .go]

theorem settled_secondTry : ∃ s,
    (system weightsDigest modelsApp).execGuarded (fun s l => s.removes l ∧ s.punctual l) empty
      secondTry = some s ∧
    s.handlers[1]?.any Handler.answered ∧ Settled weightsDigest modelsApp s := by
  have hrun : ((system weightsDigest modelsApp).execGuarded
      (fun s l => s.removes l ∧ s.punctual l) empty secondTry).any
        fun s => s.handlers[1]?.any Handler.answered := by
    decide +kernel
  obtain ⟨s, hs, hanswered⟩ := (Option.any_eq_true _ _).mp hrun
  exact ⟨s, hs, hanswered, settled_of_reach (.execGuarded (.init init_empty) hs)⟩

/-- Both providers refuse, and the file comes into being behind the response. -/
def opensLate : List BridgeLabel :=
  [.request weightsRequest, .run 0 .go, .run 0 (.answers 404), .run 0 (.answers 404), .run 0 .go,
    .run 0 .opened]

theorem opensLate_not_settled : ∃ s,
    (system weightsDigest modelsApp).execGuarded (fun s l => s.removes l) empty
      opensLate = some s ∧
    ¬ Settled weightsDigest modelsApp s := by
  have hrun : ((system weightsDigest modelsApp).execGuarded (fun s l => s.removes l) empty
      opensLate).map (fun s => (s.handlers.map fun h => (h.outPath, h.pc),
          s.disk.file ["models", "weights"])) =
        some ([(["models", "weights"],
          .responded (.failed "SP returned 404 for part 1 (baga1)"))], some (0, [])) := by
    decide +kernel
  obtain ⟨s, hs, heq⟩ := Option.map_eq_some_iff.mp hrun
  obtain ⟨hhandlers, hfile⟩ := Prod.mk.inj heq
  obtain ⟨h, hsingle, hmap⟩ := List.map_eq_singleton_iff.mp hhandlers
  obtain ⟨hpath, hpc⟩ := Prod.mk.inj hmap
  refine ⟨s, hs, fun hsettled => ?_⟩
  have hlatest : s.Latest 0 h := by
    rw [Latest, hsingle]
    refine ⟨rfl, fun j x hj _ => ?_⟩
    have := (List.getElem?_eq_some_iff.mp hj).1
    simpa using this
  have hnone := hsettled.cleaned 0 h _ hlatest hpc BridgeResponse.status_failed
  rw [hpath, hfile] at hnone
  cases hnone

end Bridge

end OpenModel.FocBridge
