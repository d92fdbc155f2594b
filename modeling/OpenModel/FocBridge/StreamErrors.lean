import OpenModel.FocBridge.Bridge
import OpenModel.Lib.Progress

/-!
# Errors of the write stream

The stream is created with no listener for `'error'`. The first `pipeline` attaches one that
stays. Once the stream was ended the handler awaits `'finish'` and nothing else, so an error
there leaves it waiting.

## Main results

- `Bridge.survives_iff`: an error of the stream becomes a response if somebody listens, and the
  handler does not await `'finish'`
-/

namespace OpenModel.FocBridge

theorem BridgeResponse.status_of_ne {response : BridgeResponse} (h : response.status ≠ 200) :
    400 ≤ response.status := by
  cases response with
  | downloaded => exact absurd rfl h
  | mismatch =>
    show 400 ≤ 422
    decide
  | failed =>
    show 400 ≤ 500
    decide

/-- How many steps a handler whose stream has failed takes at most. -/
def BridgePc.stepsLeft : BridgePc → Nat
  | fetching _ false => 4
  | fetching _ true => 3
  | streaming _ _ => 2
  | unlinking _ => 1
  | _ => 0

namespace Handler

variable {digest : Bytes → String} {app : App} {h h' : Handler} {disk disk' : Disk}
  {ev : BridgeEvent}

/-- The stream has failed, and the handler is on its way to an error. -/
structure Failing (h : Handler) : Prop where
  phase : h.phase = .errored
  pc : h.pc.part.isSome ∨
    ∃ response, (h.pc = .unlinking response ∨ h.pc = .responded response) ∧ response.status ≠ 200

theorem failing_of_error (ht : h.Tracks) (hphase : ∀ number, h.phase ≠ .closed number)
    (hcreated : h.phase ≠ .notCreated) (hpc : h.pc ≠ .finishing) :
    Failing { h with phase := .errored } := by
  refine ⟨rfl, ?_⟩
  have hfinished (hf : h.pc.finished) : False := by
    obtain ⟨number, hclosed⟩ := ht.finished hf
    exact hphase number hclosed
  cases heq : h.pc with
  | mkdir => exact absurd (ht.created heq).2 hcreated
  | fetching | streaming => exact .inl rfl
  | finishing => exact absurd heq hpc
  | stat => exact (hfinished (by rw [heq]; rfl)).elim
  | unlinking response => exact .inr ⟨response, .inl rfl, ht.unlinking response heq⟩
  | responded response =>
    refine .inr ⟨response, .inr rfl, ?_⟩
    cases response with
    | downloaded => exact (hfinished (by rw [heq]; rfl)).elim
    | mismatch => exact BridgeResponse.status_mismatch
    | failed => exact BridgeResponse.status_failed

/-- **Step**: a handler whose stream has failed comes closer to its response. -/
theorem Failing.step (hf : h.Failing) (hstep : h.step digest app disk ev = some (h', disk')) :
    h'.Failing ∧ h'.pc.stepsLeft < h.pc.stepsLeft ∧ ev ≠ .streamError := by
  have htakes : h.takes = false := by
    simp [takes, hf.phase]
  have hnot {pc : BridgePc} (hpc : h.pc = pc) (hpart : pc.part = none)
      (hresponse : ∀ response, pc ≠ .unlinking response ∧ pc ≠ .responded response) : False := by
    obtain hsome | ⟨response, heq, -⟩ := hf.pc
    · rw [hpc, hpart] at hsome
      cases hsome
    · rw [hpc] at heq
      exact heq.elim (hresponse response).1 (hresponse response).2
  cases stepped_of_step hstep with
  | creates hpc | finishes hpc | verifies hpc =>
    exact (hnot hpc rfl fun _ => ⟨nofun, nofun⟩).elim
  | @retries part ev hpc hev =>
    refine ⟨⟨hf.phase, .inl rfl⟩, ?_, ?_⟩
    · rw [hpc]
      simp [BridgePc.stepsLeft]
    · rintro rfl
      simp at hev
  | @streams part status fromSecondary hpc hok =>
    refine ⟨⟨hf.phase, .inl rfl⟩, ?_, nofun⟩
    rw [hpc]
    cases fromSecondary <;> simp [BridgePc.stepsLeft]
  | refused hpc hok =>
    refine ⟨⟨hf.phase, .inr ⟨_, .inl rfl, BridgeResponse.status_failed⟩⟩, ?_, nofun⟩
    rw [hpc]
    simp [failed, BridgePc.stepsLeft]
  | throws hpc =>
    refine ⟨⟨hf.phase, .inr ⟨_, .inl rfl, BridgeResponse.status_failed⟩⟩, ?_, nofun⟩
    rcases hpc with hpc | ⟨part, hpc⟩ | ⟨part, fromSecondary, hpc⟩ | hpc
    · exact (hnot hpc rfl fun _ => ⟨nofun, nofun⟩).elim
    · rw [hpc]
      simp [failed, BridgePc.stepsLeft]
    · rw [hpc]
      simp [failed, BridgePc.stepsLeft]
    · exact (hnot hpc rfl fun _ => ⟨nofun, nofun⟩).elim
  | taps hpc ht | endsPart hpc ht => exact absurd (htakes.symm.trans ht) Bool.noConfusion
  | @unlinks response hpc | @keeps response _ hpc =>
    have hstatus : response.status ≠ 200 := by
      obtain hsome | ⟨response', heq | heq, hne⟩ := hf.pc
      · rw [hpc] at hsome
        cases hsome
      · cases hpc.symm.trans heq
        exact hne
      · cases hpc.symm.trans heq
    refine ⟨⟨hf.phase, .inr ⟨response, .inr rfl, hstatus⟩⟩, ?_, nofun⟩
    rw [hpc]
    simp [BridgePc.stepsLeft]
  | opens hphase => exact absurd (hf.phase.symm.trans hphase) StreamPhase.noConfusion
  | flushes hphase => exact absurd (hf.phase.symm.trans hphase) StreamPhase.noConfusion
  | errs hphase =>
    rcases hphase with hphase | ⟨number, hphase, -⟩
    · exact absurd (hf.phase.symm.trans hphase) StreamPhase.noConfusion
    · exact absurd (hf.phase.symm.trans hphase) StreamPhase.noConfusion

/-- Whatever it awaits can fail. -/
theorem Failing.enabled (digest : Bytes → String) (app : App) (disk : Disk) (hpos : 0 < h.pc.stepsLeft) :
    ∃ h', h.step digest app disk (.fails "") = some (h', disk) := by
  cases hpc : h.pc with
  | fetching part fromSecondary => cases fromSecondary <;> simp [Handler.step, hpc]
  | streaming | unlinking => simp [Handler.step, hpc]
  | mkdir | finishing | stat | responded =>
    rw [hpc] at hpos
    simp [BridgePc.stepsLeft] at hpos

theorem Failing.responded (hf : h.Failing) (hzero : h.pc.stepsLeft = 0) :
    ∃ response, h.pc = .responded response ∧ 400 ≤ response.status := by
  obtain hsome | ⟨response, hpc | hpc, hstatus⟩ := hf.pc
  · cases hpc : h.pc with
    | fetching part fromSecondary =>
      rw [hpc] at hzero
      cases fromSecondary <;> simp [BridgePc.stepsLeft] at hzero
    | streaming =>
      rw [hpc] at hzero
      simp [BridgePc.stepsLeft] at hzero
    | _ =>
      rw [hpc] at hsome
      cases hsome
  · rw [hpc] at hzero
    simp [BridgePc.stepsLeft] at hzero
  · exact ⟨response, hpc, BridgeResponse.status_of_ne hstatus⟩

end Handler

namespace Bridge

variable {digest : Bytes → String} {app : App} {s t : Bridge} {l : BridgeLabel}
  {h h' : Handler} {k : Nat}

/-- The steps of handler `k` and its stream. -/
def ofHandler (k : Nat) (l : BridgeLabel) : Prop := ∃ ev, l = .run k ev

/-- Requests and other handlers, none of which ends the process. -/
def undisturbed (k : Nat) (s : Bridge) (l : BridgeLabel) : Prop :=
  ¬ ofHandler k l ∧ ∀ j h, l = .run j .streamError → s.handlers[j]? = some h → h.listening

/-- Request `k` was answered with an error and does not hold its destination any more. -/
def ErrorAnswered (k : Nat) (s : Bridge) : Prop :=
  ∃ h response, s.handlers[k]? = some h ∧ h.pc = .responded response ∧ 400 ≤ response.status ∧
    (h.outPath ∈ s.inFlight → ∃ j x, j ≠ k ∧ s.Active j x ∧ x.outPath = h.outPath)

/-- The process lives on, and request `k` will be answered with an error. -/
def Survives (digest : Bytes → String) (app : App) (k : Nat) (s : Bridge) : Prop :=
  s.crashed = false ∧
    ∃ n, (system digest app).Within (ofHandler k) (undisturbed k) (ErrorAnswered k) n s

/-- Handler `k` is on its way to an error. -/
structure Fails (digest : Bytes → String) (k : Nat) (s : Bridge) : Prop where
  crashed : s.crashed = false
  failing : ∃ h, s.handlers[k]? = some h ∧ h.Failing
  sound : s.Sound digest

def stepsLeft (k : Nat) (s : Bridge) : Nat := (s.handlers[k]?).elim 0 fun h => h.pc.stepsLeft

theorem stepsLeft_eq (hk : s.handlers[k]? = some h) : s.stepsLeft k = h.pc.stepsLeft := by
  rw [stepsLeft, hk]
  rfl

theorem Fails.answered (hf : s.Fails digest k) (hzero : s.stepsLeft k = 0) :
    s.ErrorAnswered k := by
  obtain ⟨h, hk, hfailing⟩ := hf.failing
  rw [stepsLeft_eq hk] at hzero
  obtain ⟨response, hpc, hstatus⟩ := hfailing.responded hzero
  refine ⟨h, response, hk, hpc, hstatus, fun hmem => ?_⟩
  obtain ⟨j, x, hj, hpath⟩ := (hf.sound.flight _).mp hmem
  refine ⟨j, x, ?_, hj, hpath⟩
  rintro rfl
  obtain rfl := Option.some.inj (hk.symm.trans hj.1)
  have ha := hj.2
  rw [Handler.answered, hpc] at ha
  cases ha

theorem Fails.others (hf : s.Fails digest k) (hl : undisturbed k s l)
    (hstep : s.step digest app l = some t) : t.Fails digest k ∧ t.stepsLeft k ≤ s.stepsLeft k := by
  obtain ⟨h, hk, hfailing⟩ := hf.failing
  have hsound := hf.sound.step hstep
  suffices t.crashed = false ∧ t.handlers[k]? = some h by
    refine ⟨⟨this.1, ⟨h, this.2, hfailing⟩, hsound⟩, ?_⟩
    rw [stepsLeft_eq hk, stepsLeft_eq this.2]
  obtain ⟨req, status, rfl, -, rfl⟩ | ⟨req, outPath, rfl, haccept, rfl⟩ |
    ⟨j, ev, x, x', disk, rfl, hj, hrun, rfl⟩ := step_cases hstep
  · exact ⟨hf.crashed, hk⟩
  · exact ⟨hf.crashed, (List.getElem?_append_left (List.getElem?_eq_some_iff.mp hk).1).trans hk⟩
  · have hjk : j ≠ k := by
      rintro rfl
      exact hl.1 ⟨ev, rfl⟩
    refine ⟨?_, (List.getElem?_set_ne hjk).trans hk⟩
    by_cases hev : ev = .streamError
    · subst hev
      simp [hl.2 j x rfl hj]
    · simp [hev]

theorem Fails.enabled (hf : s.Fails digest k) (hpos : 0 < s.stepsLeft k) :
    ∃ l t, ofHandler k l ∧ s.step digest app l = some t := by
  obtain ⟨h, hk, -⟩ := hf.failing
  rw [stepsLeft_eq hk] at hpos
  obtain ⟨h', hrun⟩ := Handler.Failing.enabled digest app s.disk hpos
  have hstep : (s.step digest app (.run k (.fails ""))).isSome := by
    simp [step, hf.crashed, hk, hrun]
  obtain ⟨t, ht⟩ := Option.isSome_iff_exists.mp hstep
  exact ⟨.run k (.fails ""), t, ⟨_, rfl⟩, ht⟩

theorem Fails.own (hf : s.Fails digest k) (hl : ofHandler k l)
    (hstep : s.step digest app l = some t) : t.Fails digest k ∧ t.stepsLeft k < s.stepsLeft k := by
  obtain ⟨h, hk, hfailing⟩ := hf.failing
  have hsound := hf.sound.step hstep
  obtain ⟨ev, rfl⟩ := hl
  obtain ⟨h', disk, hrun, rfl⟩ := run_of_step hk hstep
  obtain ⟨hfailing', hlt, hev⟩ := hfailing.step hrun
  have hk' : (s.handlers.set k h')[k]? = some h' := handlers_set_self hk
  refine ⟨⟨by simp [hev], ⟨h', hk', hfailing'⟩, hsound⟩, ?_⟩
  rw [stepsLeft_eq hk, stepsLeft_eq hk']
  exact hlt

/-- **Failures**: what handler `k` still has to do ends with an error. -/
theorem Fails.survives (hf : s.Fails digest k) : s.Survives digest app k :=
  ⟨hf.crashed, _, Transition.System.within_of_measure
    (fun _ _ _ hs hl hstep => hs.others hl hstep) (fun _ hs hpos => hs.enabled hpos)
    (fun _ _ _ hs _ hl hstep => hs.own hl hstep) (fun _ hs hzero => hs.answered hzero) hf le_rfl⟩

/-- Behind an error of the stream, a handler that awaits `'finish'` goes nowhere. -/
theorem not_survives_of_finishing (hk : s.handlers[k]? = some h) (hphase : h.phase = .errored)
    (hpc : h.pc = .finishing) : ¬ s.Survives digest app k := by
  rintro ⟨-, n, hwithin⟩
  refine Transition.System.not_within_of_stuck ?_ ?_ hwithin
  · rintro ⟨h', response, hk', hpc', -⟩
    obtain rfl := Option.some.inj (hk.symm.trans hk')
    cases hpc.symm.trans hpc'
  · rintro _ t ⟨ev, rfl⟩ (hstep : s.step digest app (.run k ev) = some t)
    obtain ⟨h', disk, hrun, -⟩ := run_of_step hk hstep
    cases ev <;> simp [Handler.step, Handler.go, hpc, hphase] at hrun

/-- **Stream errors**: an error of the stream of request `k` becomes a response if and only if
somebody listens for it and the handler does not await `'finish'`. -/
theorem survives_iff (hreach : (system digest app).Reach Transition.System.anyStep s)
    (hk : s.handlers[k]? = some h)
    (hstep : s.step digest app (.run k .streamError) = some t) :
    t.Survives digest app k ↔ h.listening ∧ h.pc ≠ .finishing := by
  have hs : s.Sound digest := sound_of_reach hreach
  have ht := hs.step hstep
  obtain ⟨h', disk, hrun, rfl⟩ := run_of_step hk hstep
  have hk' : (s.handlers.set k h')[k]? = some h' := handlers_set_self hk
  cases Handler.stepped_of_step hrun with
  | retries hpc hev => simp at hev
  | errs hphase =>
    have hopen : h.phase ≠ .notCreated ∧ ∀ number, h.phase ≠ .closed number := by
      rcases hphase with hphase | ⟨number, hphase, -⟩
      · exact ⟨by rw [hphase]; nofun, by rw [hphase]; nofun⟩
      · exact ⟨by rw [hphase]; nofun, by rw [hphase]; nofun⟩
    constructor
    · intro hsurvives
      refine ⟨by simpa using hsurvives.1, fun hpc => ?_⟩
      exact not_survives_of_finishing (h := { h with phase := .errored }) hk' rfl hpc hsurvives
    · rintro ⟨hlistening, hpc⟩
      refine Fails.survives ⟨by simp [hlistening], ⟨_, hk', ?_⟩, ht⟩
      exact Handler.failing_of_error (hs.tracks k h hk) hopen.2 hopen.1 hpc

/-- The disk is full. -/
def bodyBegins : List BridgeLabel :=
  [.request weightsRequest, .run 0 .go, .run 0 .opened, .run 0 (.answers 200),
    .run 0 (.chunk [1, 2])]

theorem survives_bodyBegins : ∃ s t,
    (system weightsDigest modelsApp).exec empty bodyBegins = some s ∧
    s.step weightsDigest modelsApp (.run 0 .streamError) = some t ∧
    t.Survives weightsDigest modelsApp 0 := by
  have hrun : (((system weightsDigest modelsApp).exec empty bodyBegins).bind fun s =>
      (s.step weightsDigest modelsApp (.run 0 .streamError)).map fun _ =>
        s.handlers[0]?.map fun h => (h.listening, h.pc)) =
          some (some (true, .streaming 0 false)) := by
    decide +kernel
  obtain ⟨s, hs, hmap⟩ := Option.bind_eq_some_iff.mp hrun
  obtain ⟨t, hstep, hfirst⟩ := Option.map_eq_some_iff.mp hmap
  obtain ⟨h, hk, heq⟩ := Option.map_eq_some_iff.mp hfirst
  obtain ⟨hlistening, hpc⟩ := Prod.mk.inj heq
  have hiff := survives_iff (Transition.System.reach_of_exec init_empty hs) hk hstep
  exact ⟨s, t, hs, hstep, hiff.mpr ⟨hlistening, by rw [hpc]; nofun⟩⟩

def baseRequest : DownloadRequest where
  pieceCids := ["baga1"]
  destPath := "."
  sha256 := none

/-- The path is that of the base directory, which cannot be opened for writing. -/
theorem baseRequest_not_survives : ∃ s t,
    (system weightsDigest modelsApp).exec empty [.request baseRequest, .run 0 .go] = some s ∧
    s.step weightsDigest modelsApp (.run 0 .streamError) = some t ∧
    ¬ t.Survives weightsDigest modelsApp 0 := by
  have hrun : (((system weightsDigest modelsApp).exec empty
      [.request baseRequest, .run 0 .go]).bind fun s =>
        s.step weightsDigest modelsApp (.run 0 .streamError)).map Bridge.crashed = some true := by
    decide +kernel
  obtain ⟨t, hbind, hcrashed⟩ := Option.map_eq_some_iff.mp hrun
  obtain ⟨s, hs, hstep⟩ := Option.bind_eq_some_iff.mp hbind
  refine ⟨s, t, hs, hstep, fun hsurvives => ?_⟩
  exact absurd (hcrashed.symm.trans hsurvives.1) (by decide)

end Bridge

end OpenModel.FocBridge
