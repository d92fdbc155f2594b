import OpenModel.Inference.Ownership

/-!
# Coroutines and their program counters

A thread only ever stands where the code of its coroutine can stand: a `pause` is in
`pause` or in the reload that a pending resume asked for, a `switch_model` is in its
drain, in its own `pause` or in its own `resume`, and so on.

## Main results

- `VLLMEngine.runPc_belongs`: a slice stays within its coroutine
- `EngineSys.belongs_of_reach`: so does every thread of every run
-/

namespace OpenModel.Inference

/-- `pause` was called by this coroutine. -/
def Caller.inPause : Caller → Op → Bool
  | external, .pause _ => true
  | switchModel new, .switchModel new' => new == new'
  | _, _ => false

/-- `resume` was called by this coroutine. -/
def Caller.inResume : Caller → Op → Bool
  | external, .resume => true
  | switchModel new, .switchModel new' => new == new'
  | _, _ => false

def ReloadCaller.belongs : ReloadCaller → Op → Bool
  | pause c, op => c.inPause op
  | resume c, op => c.inResume op
  | recover, op => op == .recover

def Critical.belongs : Critical → Op → Bool
  | startBegin modelPath, op => op == .start modelPath
  | startFailed, .start _ | startFinish, .start _ => true
  | pauseLook _ c, op | pauseTakeover c, op | pauseDestroy c, op => c.inPause op
  | resumeLook c, op => c.inResume op
  | reloadFinish r, op | reloadGiveUp r, op => r.caller.belongs op
  | recoverBegin, op => op == .recover
  | stopBegin, op => op == .stop
  | _, _ => false

def Teardown.belongs : Teardown → Op → Bool
  | start, .start _ => true
  | pause c, op => c.inPause op
  | reload r, op => r.caller.belongs op
  | recover, op => op == .recover
  | stop, op => op == .stop
  | _, _ => false

def Drain.belongs : Drain → Op → Bool
  | pause c, op => c.inPause op
  | switchModel new, op => op == .switchModel new

def Pc.belongs : Pc → Op → Bool
  | lock block, op => block.belongs op
  | destroy t _, op => t.belongs op
  | drain d, op => d.belongs op
  | load r, op | retrySleep r, op => r.caller.belongs op
  | startCreate, .start _ => true
  | startCreate, _ => false
  | generating _ _, .generate _ | aborting, .generate _ => true
  | generating _ _, _ | aborting, _ => false
  | created, _ | exitSleep, _ | finished _, _ => true

namespace VLLMEngine

variable {e : VLLMEngine} {op : Op}

theorem pauseReturn_belongs {c : Caller} (h : c.inPause op) : (e.pauseReturn c).pc.belongs op := by
  cases c with
  | external => rfl
  | switchModel new => cases op <;> simp_all [pauseReturn, Caller.inPause, Pc.belongs,
      Critical.belongs, Caller.inResume]

theorem pauseRaise_belongs {c : Caller} : (e.pauseRaise c).pc.belongs op := by
  cases c <;> rfl

theorem resumeReturn_belongs {c : Caller} : (e.resumeReturn c).pc.belongs op := by
  cases c <;> rfl

theorem reloadReturn_belongs {c : ReloadCaller} (h : c.belongs op) :
    (e.reloadReturn c).pc.belongs op := by
  cases c with
  | pause c => exact pauseReturn_belongs h
  | resume c => exact resumeReturn_belongs
  | recover => rfl

theorem reloadFailed_belongs {r : Reload} (h : r.caller.belongs op) :
    (e.reloadFailed r).pc.belongs op := by
  simp only [reloadFailed]
  split_ifs <;> exact h

theorem critical_belongs {block : Critical} (h : block.belongs op) :
    (e.critical block).pc.belongs op := by
  cases block with
  | startBegin modelPath =>
    obtain rfl : op = .start modelPath := by simpa [Critical.belongs] using h
    rfl
  | startFinish =>
    simp only [critical]
    split_ifs
    · cases op <;> first | rfl | cases h
    · rfl
  | pauseLook urgency c =>
    simp only [critical]
    split_ifs
    · exact pauseReturn_belongs h
    · exact pauseReturn_belongs h
    · exact h
    · exact h
  | pauseTakeover c =>
    simp only [critical]
    split_ifs
    · exact pauseReturn_belongs h
    · exact h
  | resumeLook c =>
    simp only [critical]
    split_ifs
    · exact resumeReturn_belongs
    · exact resumeReturn_belongs
    · exact resumeReturn_belongs
    · exact h
  | reloadFinish r =>
    simp only [critical]
    split_ifs
    · exact h
    · exact reloadReturn_belongs h
  | recoverBegin =>
    simp only [critical]
    split_ifs
    · rfl
    · exact h
  | pauseDestroy c | stopBegin => exact h
  | startFailed | reloadGiveUp r => rfl

theorem destroyed_belongs {t : Teardown} (h : t.belongs op) : (e.destroyed t).pc.belongs op := by
  cases t with
  | pause c =>
    simp only [destroyed]
    split_ifs
    · exact h
    · exact pauseReturn_belongs h
  | reload r => exact reloadReturn_belongs h
  | recover => exact h
  | start | stop => rfl

theorem destroyRaised_belongs {t : Teardown} (h : t.belongs op) :
    (e.destroyRaised t).pc.belongs op := by
  cases t with
  | pause c => exact pauseRaise_belongs
  | reload r => exact reloadFailed_belongs h
  | start | recover | stop => rfl

theorem enter_belongs : (e.enter op).pc.belongs op := by
  cases op with
  | switchModel new =>
    simp only [enter, switchEnter]
    split_ifs <;> simp [Pc.belongs, Drain.belongs]
  | generate requested =>
    simp only [enter, beginGenerate]
    split <;> rfl
  | _ => simp [enter, Pc.belongs, Critical.belongs, Caller.inPause, Caller.inResume]

theorem generateStep_belongs {weights : ModelPath} {hasOutput : Bool} {o : Outcome} {slice : Slice}
    (h : (Pc.generating weights hasOutput).belongs op)
    (hs : e.generateStep weights hasOutput o = some slice) : slice.pc.belongs op := by
  obtain ⟨requested, rfl⟩ : ∃ requested, op = .generate requested := by
    cases op <;> simp_all [Pc.belongs]
  cases o with
  | output =>
    simp only [generateStep] at hs
    split_ifs at hs <;> cases hs <;> rfl
  | _ => cases hs <;> rfl

/-- **A slice stays within its coroutine**. -/
theorem runPc_belongs {k : Nat} {pc : Pc} {o : Outcome} {slice : Slice} (h : pc.belongs op)
    (hs : e.runPc k op pc o = some slice) : slice.pc.belongs op := by
  cases pc with
  | created =>
    cases o <;> cases hs
    exact enter_belongs
  | lock block =>
    obtain ⟨l, -, rfl⟩ := runPc_block hs
    exact critical_belongs h
  | destroy t phase =>
    cases phase <;> cases o <;> cases hs
    · exact h
    · exact h
    · exact h
    · exact destroyed_belongs h
    · exact destroyRaised_belongs h
  | drain d =>
    obtain rfl := runPc_drain hs
    cases d with
    | pause c => exact h
    | switchModel new =>
      obtain rfl : op = .switchModel new := by simpa [Pc.belongs, Drain.belongs] using h
      simp [drained, Pc.belongs, Critical.belongs, Caller.inPause]
  | load r =>
    cases o <;> cases hs
    · exact h
    · exact reloadFailed_belongs h
  | startCreate =>
    obtain ⟨modelPath, rfl⟩ : ∃ modelPath, op = .start modelPath := by
      cases op <;> simp_all [Pc.belongs]
    cases o <;> cases hs <;> rfl
  | retrySleep r =>
    cases o <;> cases hs
    exact h
  | generating weights hasOutput => exact generateStep_belongs h hs
  | aborting =>
    cases o <;> cases hs
    rfl
  | exitSleep | finished result => cases o <;> cases hs

end VLLMEngine

namespace EngineSys

variable {s t : EngineSys} {k : Nat} {o : Outcome}

/-- Every thread stands within its coroutine. -/
def Belongs (s : EngineSys) : Prop := ∀ th ∈ s.threads, th.pc.belongs th.op

theorem settle_thread {th : Thread} {slice : Slice} (hth : s.threads[k]? = some th) :
    (s.settle k th slice).threads[k]? =
      some ⟨th.op, slice.pc, if th.pc.atPauseLook then s.engine.loads else th.mark⟩ := by
  have hk : k < s.threads.length := (List.getElem?_eq_some_iff.mp hth).1
  simp [settle, List.getElem?_append, hk]

/-- Where a thread comes from. -/
theorem thread_cases_of_settle {th x : Thread} {slice : Slice} {j : Nat}
    (hth : s.threads[k]? = some th) (hx : (s.settle k th slice).threads[j]? = some x) :
    (j = k ∧ x.op = th.op ∧ x.pc = slice.pc) ∨ (j ≠ k ∧ s.threads[j]? = some x) ∨
      slice.spawn ∧ x = { op := .recover } := by
  by_cases hjk : j = k
  · subst hjk
    rw [settle_thread hth] at hx
    obtain rfl := Option.some.inj hx
    exact .inl ⟨rfl, rfl, rfl⟩
  · refine .inr ?_
    simp only [settle] at hx
    by_cases hlt : j < s.threads.length
    · rw [List.getElem?_append_left (by simpa using hlt), List.getElem?_set_ne (Ne.symm hjk)] at hx
      exact .inl ⟨hjk, hx⟩
    · rw [List.getElem?_append_right (by simpa using hlt)] at hx
      have hmem := List.mem_of_getElem? hx
      split_ifs at hmem with hspawn
      · exact .inr ⟨hspawn, List.mem_singleton.mp hmem⟩
      · cases hmem

/-- Without a recovery task there are no new threads. -/
theorem thread_of_settle {th x : Thread} {slice : Slice} {j : Nat}
    (hth : s.threads[k]? = some th) (hspawn : slice.spawn = false)
    (hx : (s.settle k th slice).threads[j]? = some x) :
    (j = k ∧ x.op = th.op ∧ x.pc = slice.pc) ∨ (j ≠ k ∧ s.threads[j]? = some x) :=
  (thread_cases_of_settle hth hx).imp_right fun h => h.resolve_right (by simp [hspawn])

theorem thread_of_spawn {op : Op} {x : Thread} {j : Nat}
    (hx : (s.spawn op).threads[j]? = some x) :
    s.threads[j]? = some x ∨ j = s.threads.length ∧ x = { op } := by
  simp only [spawn, List.getElem?_append] at hx
  split_ifs at hx with hlt
  · exact .inl hx
  · rw [List.getElem?_singleton] at hx
    split_ifs at hx with hj
    exact .inr ⟨by omega, (Option.some.inj hx).symm⟩

/-- A call creates its thread and runs it. -/
theorem thread_of_call {op : Op} (hstep : s.step (.call op) = some t) :
    ∃ slice, (s.spawn op).threads[s.threads.length]? = some { op } ∧
      (s.spawn op).engine.runPc s.threads.length op .created .go = some slice ∧
      t = (s.spawn op).settle s.threads.length { op } slice := by
  obtain ⟨th, slice, hth, hslice, rfl⟩ := runThread_eq_some.mp (runThread_of_call hstep)
  obtain rfl : th = { op } := by simpa [EngineSys.spawn] using hth.symm
  exact ⟨slice, hth, hslice, rfl⟩

theorem mem_settle {th x : Thread} {slice : Slice} (hx : x ∈ (s.settle k th slice).threads) :
    x ∈ s.threads ∨ (x.op = th.op ∧ x.pc = slice.pc) ∨ x = { op := .recover } := by
  simp only [settle] at hx
  rcases List.mem_append.mp hx with hx | hx
  · rcases List.mem_or_eq_of_mem_set hx with hx | rfl
    · exact .inl hx
    · exact .inr (.inl ⟨rfl, rfl⟩)
  · split_ifs at hx
    · exact .inr (.inr (List.mem_singleton.mp hx))
    · cases hx

theorem Belongs.spawn (h : s.Belongs) {op : Op} : (s.spawn op).Belongs := by
  intro x hx
  rcases List.mem_append.mp hx with hx | hx
  · exact h x hx
  · obtain rfl := List.mem_singleton.mp hx
    rfl

theorem Belongs.runThread (h : s.Belongs) (hrun : s.runThread k o = some t) : t.Belongs := by
  obtain ⟨th, slice, hth, hpc, rfl⟩ := runThread_eq_some.mp hrun
  intro x hx
  rcases mem_settle hx with hx | ⟨hop, hxpc⟩ | rfl
  · exact h x hx
  · rw [hop, hxpc]
    exact VLLMEngine.runPc_belongs (h th (List.mem_of_getElem? hth)) hpc
  · rfl

/-- **Step lemma**. -/
theorem Belongs.step (h : s.Belongs) {l : Label} (hstep : s.step l = some t) : t.Belongs := by
  obtain ⟨op, -, -, rfl⟩ | ⟨op, -, -, hrun⟩ | ⟨k, o, -, hrun⟩ := step_cases hstep
  · exact h.spawn
  · exact h.spawn.runThread hrun
  · exact h.runThread hrun

/-- **Run lemma**: in every run each thread stands within its coroutine. -/
theorem belongs_of_reach {ok : EngineSys → Label → Prop} (h : system.Reach ok s) : s.Belongs := by
  refine h.invariant (fun s hs => ?_) fun s l t hs _ hstep => hs.step hstep
  rcases hs with rfl | ⟨modelPath, rfl⟩ <;> simp [Belongs]

end EngineSys

end OpenModel.Inference
