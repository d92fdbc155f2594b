import OpenModel.Inference.MiningRun

/-!
# Soft yields

A RUNNING engine with any requests in flight is told to yield softly, once or more often, while
outputs arrive and requests are made. From the first pause that takes the lock until a resume
loads the engine again, it admits no request, it aborts none before a drain runs out of time,
and it is torn down only when no request is left or a drain has run out of time.

The engine leaves RUNNING only in `pauseTakeover`, behind a drain. A drain ends with the last
request or in a timeout, and no request comes after it, because the gate (`_accepting`) was
closed before the drain began.

## Main results

- `VLLMEngine.runPc_softly`: what a step of such a run can do
- `SoftYield.drains_of_reach`: soft yields drain
-/

namespace OpenModel.Inference

/-- The operations of a soft yield. -/
def Op.isSoft : Op → Bool
  | pause .normal | resume | generate _ => true
  | _ => false

/-- Where their threads can stand, once they run, until the engine is loaded again. -/
def Pc.soft : Pc → Bool
  | generating _ _ | aborting | finished _ => true
  | lock (.pauseLook .normal .external) | lock (.resumeLook .external) => true
  | drain (.pause .external) | lock (.pauseTakeover .external) => true
  | lock (.pauseDestroy .external) | destroy (.pause .external) _ => true
  | _ => false

/-- A drain is over, and the pause is about to look at the state again. -/
def Pc.atTakeover : Pc → Bool
  | lock (.pauseTakeover _) => true
  | _ => false

theorem Pc.drainsPause_of_atTakeover {pc : Pc} (h : pc.atTakeover) : pc.drainsPause := by
  cases pc with
  | lock block => cases block <;> first | rfl | cases h
  | _ => cases h

theorem Pc.not_atTakeover_of_serves {pc : Pc} (h : pc.serves) : pc.atTakeover = false := by
  by_contra htakeover
  have hdrains := drainsPause_of_atTakeover (Bool.eq_true_of_not_eq_false htakeover)
  rw [not_drainsPause_of_serves h] at hdrains
  cases hdrains

theorem Pc.not_atPauseLook_of_serves {pc : Pc} (h : pc.serves) : pc.atPauseLook = false := by
  obtain ⟨weights, hasOutput, rfl⟩ | rfl := serves_cases h
  · rfl
  · rfl

theorem Pc.not_unloads_of_serves {pc : Pc} (h : pc.serves) : pc.unloads = false := by
  rw [unloads, role_of_serves h]
  rfl

theorem Pc.soft_of_serves {pc : Pc} (h : pc.serves) : pc.soft := by
  obtain ⟨weights, hasOutput, rfl⟩ | rfl := serves_cases h
  · rfl
  · rfl

-- ════════════════════════════════════════════════════════════════════════
-- One thread
-- ════════════════════════════════════════════════════════════════════════

/-- The fields that decide about requests agree. -/
structure SameService (e e' : VLLMEngine) : Prop where
  state : e'.state = e.state
  core : e'.core = e.core
  accepting : e'.accepting = e.accepting
  activeRequests : e'.activeRequests = e.activeRequests

/-- What a slice can do in a soft yield. -/
inductive Softly (e : VLLMEngine) (pc : Pc) (o : Outcome) (slice : Slice) : Prop
  | keeps (h : SameService e slice.engine) (hsoft : slice.pc.soft)
      (hplain : slice.pc.drainsPause = false ∧ slice.pc.unloads = false)
      (hserves : slice.pc.serves = pc.serves) (hlook : pc.atPauseLook → e.state ≠ .running)
  | admits (h : e.isAvailable) (hpc : pc = .created) (hslice : slice.pc.serves)
      (hstate : slice.engine.state = e.state) (hcore : slice.engine.core = e.core)
      (haccepting : slice.engine.accepting = e.accepting)
      (hactive : slice.engine.activeRequests = e.activeRequests + 1)
  | done (hpc : pc.serves) (hslice : ∃ result, slice.pc = .finished result)
      (hstate : slice.engine.state = e.state) (hcore : slice.engine.core = e.core)
      (haccepting : slice.engine.accepting = e.accepting)
      (hactive : slice.engine.activeRequests = e.activeRequests - 1)
  | yields (hpc : pc.atPauseLook) (hslice : slice.pc = .drain (.pause .external))
      (hstate : slice.engine.state = e.state) (hcore : slice.engine.core = e.core)
      (haccepting : slice.engine.accepting = false)
      (hactive : slice.engine.activeRequests = e.activeRequests)
  | drained (hpc : pc = .drain (.pause .external))
      (hslice : slice.pc = .lock (.pauseTakeover .external)) (h : SameService e slice.engine)
      (hover : e.activeRequests = 0 ∨ o = .drainTimeout)
  | takesOver (hpc : pc = .lock (.pauseTakeover .external))
      (hslice : slice.pc = .lock (.pauseDestroy .external))
      (hstate : slice.engine.state = .unloading)
      (hactive : slice.engine.activeRequests = e.activeRequests)
  | tears (hpc : pc.unloads) (hslice : slice.pc.soft ∧ slice.pc.drainsPause = false)
      (hserves : slice.pc.serves = false)
      (hstate : slice.engine.state = e.state ∨ slice.engine.state = .paused)
      (hactive : slice.engine.activeRequests = e.activeRequests)
  | resumes (h : slice.engine.loads = e.loads + 1) (hslice : slice.pc.serves = false)

namespace VLLMEngine

variable {e : VLLMEngine} {op : Op} {pc : Pc} {slice : Slice} {o : Outcome}

theorem keeps_of_finished {e' : VLLMEngine} {result : Result} {b : Bool}
    (h : SameService e e') (hpc : pc.serves = false) (hlook : pc.atPauseLook → e.state ≠ .running) :
    Softly e pc o ⟨e', .finished result, b⟩ :=
  .keeps h rfl ⟨rfl, rfl⟩ hpc.symm hlook

theorem enter_softly (hop : op.isSoft) : Softly e .created o (e.enter op) := by
  cases op with
  | generate requested =>
    simp only [enter, beginGenerate]
    split
    · next havailable _ => exact .admits havailable rfl rfl rfl rfl rfl rfl
    · exact keeps_of_finished ⟨rfl, rfl, rfl, rfl⟩ rfl Bool.noConfusion
  | pause urgency =>
    cases urgency with
    | normal => exact .keeps ⟨rfl, rfl, rfl, rfl⟩ rfl ⟨rfl, rfl⟩ rfl Bool.noConfusion
    | immediate => cases hop
  | resume => exact .keeps ⟨rfl, rfl, rfl, rfl⟩ rfl ⟨rfl, rfl⟩ rfl Bool.noConfusion
  | _ => cases hop

/-- The blocks under the lock. No load is on its way. -/
theorem critical_softly {block : Critical} {l : AsyncLock Nat} (hsoft : (Pc.lock block).soft)
    (hloading : e.state.isLoading = false) :
    Softly e (.lock block) o ({ e with transitionLock := l }.critical block) := by
  have hnot : ¬ (e.state = .loading ∨ e.state = .starting) := by
    rintro (hs | hs) <;> simp [hs, EngineState.isLoading] at hloading
  cases block with
  | pauseLook urgency c =>
    obtain ⟨rfl, rfl⟩ : urgency = .normal ∧ c = .external := by
      cases urgency <;> cases c <;> simp_all [Pc.soft]
    simp only [critical, if_neg hnot]
    split_ifs with hr
    · exact keeps_of_finished ⟨rfl, rfl, rfl, rfl⟩ rfl fun _ => hr
    · exact .yields rfl rfl rfl rfl rfl rfl
  | resumeLook c =>
    obtain rfl : c = .external := by cases c <;> simp_all [Pc.soft]
    simp only [critical]
    split_ifs
    · exact keeps_of_finished ⟨rfl, rfl, rfl, rfl⟩ rfl Bool.noConfusion
    · exact keeps_of_finished ⟨rfl, rfl, rfl, rfl⟩ rfl Bool.noConfusion
    · exact keeps_of_finished ⟨rfl, rfl, rfl, rfl⟩ rfl Bool.noConfusion
    · exact .resumes rfl rfl
  | pauseTakeover c =>
    obtain rfl : c = .external := by cases c <;> simp_all [Pc.soft]
    simp only [critical]
    split_ifs
    · exact keeps_of_finished ⟨rfl, rfl, rfl, rfl⟩ rfl Bool.noConfusion
    · exact .takesOver rfl rfl rfl rfl
  | pauseDestroy c =>
    obtain rfl : c = .external := by cases c <;> simp_all [Pc.soft]
    exact .tears rfl ⟨rfl, rfl⟩ rfl (.inl rfl) rfl
  | _ => cases hsoft

theorem destroyStep_softly {t : Teardown} {phase : Phase} (hsoft : (Pc.destroy t phase).soft)
    (h : e.destroyStep t phase o = some slice) : Softly e (.destroy t phase) o slice := by
  cases t with
  | pause c =>
    obtain rfl : c = .external := by cases c <;> simp_all [Pc.soft]
    cases phase <;> cases o <;> cases h
    · exact .tears rfl ⟨rfl, rfl⟩ rfl (.inl rfl) rfl
    · exact .tears rfl ⟨rfl, rfl⟩ rfl (.inl rfl) rfl
    · exact .tears rfl ⟨rfl, rfl⟩ rfl (.inl rfl) rfl
    · simp only [destroyed]
      split_ifs
      · exact .resumes rfl rfl
      · exact .tears rfl ⟨rfl, rfl⟩ rfl (.inr rfl) rfl
    · exact .tears rfl ⟨rfl, rfl⟩ rfl (.inl rfl) rfl
  | _ => cases hsoft

theorem generateStep_softly {weights : ModelPath} {hasOutput : Bool} (ho : o ≠ .coreDead)
    (h : e.generateStep weights hasOutput o = some slice) :
    Softly e (.generating weights hasOutput) o slice := by
  cases o with
  | output =>
    simp only [generateStep] at h
    split_ifs at h <;> cases h
    · exact .keeps ⟨rfl, rfl, rfl, rfl⟩ rfl ⟨rfl, rfl⟩ rfl Bool.noConfusion
    · exact .keeps ⟨rfl, rfl, rfl, rfl⟩ rfl ⟨rfl, rfl⟩ rfl Bool.noConfusion
    · exact .done rfl ⟨_, rfl⟩ rfl rfl rfl rfl
  | ended | failed =>
    cases h
    exact .done rfl ⟨_, rfl⟩ rfl rfl rfl rfl
  | stalled =>
    cases h
    exact .keeps ⟨rfl, rfl, rfl, rfl⟩ rfl ⟨rfl, rfl⟩ rfl Bool.noConfusion
  | coreDead => exact absurd rfl ho
  | _ => cases h

/-- **One step of a soft yield**. -/
theorem runPc_softly {k : Nat} (hsoft : pc.soft ∨ pc = .created ∧ op.isSoft)
    (ho : o ≠ .coreDead) (hloading : e.state.isLoading = false)
    (h : e.runPc k op pc o = some slice) : Softly e pc o slice := by
  rcases hsoft with hsoft | ⟨rfl, hop⟩
  swap
  · cases o <;> cases h
    exact enter_softly hop
  cases pc with
  | lock block =>
    obtain ⟨l, -, rfl⟩ := runPc_block h
    exact critical_softly hsoft hloading
  | destroy t phase => exact destroyStep_softly hsoft h
  | drain d =>
    cases d with
    | pause c =>
      obtain rfl : c = .external := by cases c <;> simp_all [Pc.soft]
      cases o with
      | go =>
        obtain ⟨hzero, rfl⟩ := (Option.ite_none_right_eq_some.mp h).imp_right Option.some.inj
        exact .drained rfl rfl ⟨rfl, rfl, rfl, rfl⟩ (.inl hzero)
      | drainTimeout =>
        cases h
        exact .drained rfl rfl ⟨rfl, rfl, rfl, rfl⟩ (.inr rfl)
      | _ => cases h
    | switchModel new => cases hsoft
  | generating weights hasOutput => exact generateStep_softly ho h
  | aborting =>
    cases o <;> cases h
    exact .done rfl ⟨_, rfl⟩ rfl rfl rfl rfl
  | finished => cases o <;> cases h
  | _ => cases hsoft

end VLLMEngine

namespace Softly

variable {e : VLLMEngine} {pc : Pc} {o : Outcome} {slice : Slice}

theorem soft (h : Softly e pc o slice) (hloads : slice.engine.loads = e.loads) : slice.pc.soft := by
  cases h with
  | keeps _ hsoft => exact hsoft
  | admits _ _ hslice => exact Pc.soft_of_serves hslice
  | done _ hslice =>
    obtain ⟨result, hslice⟩ := hslice
    rw [hslice]
    rfl
  | yields _ hslice | drained _ hslice | takesOver _ hslice =>
    rw [hslice]
    rfl
  | tears _ hslice => exact hslice.1
  | resumes h => omega

/-- The state is left for UNLOADING or PAUSED only. -/
theorem state (h : Softly e pc o slice) (hloads : slice.engine.loads = e.loads) :
    slice.engine.state = e.state ∨ slice.engine.state = .unloading ∨
      slice.engine.state = .paused := by
  cases h with
  | keeps h | drained _ _ h => exact .inl h.state
  | admits _ _ _ hstate | done _ _ hstate | yields _ _ hstate => exact .inl hstate
  | takesOver _ _ hstate => exact .inr (.inl hstate)
  | tears _ _ _ hstate => exact hstate.imp_right .inr
  | resumes h => omega

/-- A request is admitted by an available engine only. -/
theorem active (h : Softly e pc o slice) (hloads : slice.engine.loads = e.loads) :
    slice.engine.activeRequests ≤ e.activeRequests ∨ e.isAvailable := by
  cases h with
  | keeps h | drained _ _ h => exact .inl h.activeRequests.le
  | admits h => exact .inr h
  | done _ _ _ _ _ hactive => exact .inl (hactive ▸ Nat.sub_le _ _)
  | yields _ _ _ _ _ hactive | takesOver _ _ _ hactive | tears _ _ _ _ hactive =>
    exact .inl hactive.le
  | resumes h => omega

/-- The counter follows the requests. -/
theorem counted (h : Softly e pc o slice) (hloads : slice.engine.loads = e.loads)
    (hpos : pc.serves → 0 < e.activeRequests) :
    slice.engine.activeRequests + (if pc.serves then 1 else 0) =
      e.activeRequests + if slice.pc.serves then 1 else 0 := by
  cases h with
  | keeps h _ _ hserves => rw [h.activeRequests, hserves]
  | admits _ hpc hslice _ _ _ hactive =>
    rw [hpc, if_pos hslice, hactive]
    rfl
  | done hpc hslice _ _ _ hactive =>
    obtain ⟨result, hslice⟩ := hslice
    have := hpos hpc
    rw [if_pos hpc, hslice, hactive]
    show e.activeRequests - 1 + 1 = e.activeRequests + 0
    omega
  | yields hpc hslice _ _ _ hactive =>
    have hserves : pc.serves = false := by
      by_contra hserves
      rw [Pc.not_atPauseLook_of_serves (Bool.eq_true_of_not_eq_false hserves)] at hpc
      cases hpc
    rw [hserves, hslice, hactive]
    rfl
  | drained hpc hslice h =>
    rw [hpc, hslice, h.activeRequests]
    rfl
  | takesOver hpc hslice _ hactive =>
    rw [hpc, hslice, hactive]
    rfl
  | tears hpc _ hserves _ hactive =>
    have hpcserves : pc.serves = false := by
      by_contra hpcserves
      rw [Pc.not_unloads_of_serves (Bool.eq_true_of_not_eq_false hpcserves)] at hpc
      cases hpc
    rw [hpcserves, hserves, hactive]
  | resumes h => omega

/-- A request that is served was served before, or is admitted. -/
theorem serves (h : Softly e pc o slice) (hslice : slice.pc.serves) :
    pc.serves ∨ e.isAvailable := by
  cases h with
  | keeps _ _ _ hserves => exact .inl (hserves ▸ hslice)
  | admits h => exact .inr h
  | done hpc => exact .inl hpc
  | yields _ hpc | drained _ hpc | takesOver _ hpc =>
    rw [hpc] at hslice
    cases hslice
  | tears _ _ hserves => cases hserves.symm.trans hslice
  | resumes _ hserves => cases hserves.symm.trans hslice

/-- A closed gate stays closed while the engine is RUNNING, and a pause that looks closes it. -/
theorem accepting (h : Softly e pc o slice) (hloads : slice.engine.loads = e.loads)
    (hunloads : pc.unloads → e.state ≠ .running) (hgate : pc.atPauseLook ∨ e.accepting = false)
    (hs : slice.engine.state = .running) : slice.engine.accepting = false := by
  cases h with
  | keeps h _ _ _ hlook =>
    rcases hgate with hpc | hgate
    · exact absurd (h.state ▸ hs) (hlook hpc)
    · exact h.accepting.trans hgate
  | admits _ hpc _ _ _ haccepting =>
    rcases hgate with hlook | hgate
    · simp [hpc, Pc.atPauseLook] at hlook
    · exact haccepting.trans hgate
  | done hpc _ _ _ haccepting =>
    rcases hgate with hlook | hgate
    · simp [Pc.not_atPauseLook_of_serves hpc] at hlook
    · exact haccepting.trans hgate
  | yields _ _ _ _ haccepting => exact haccepting
  | drained hpc _ h =>
    rcases hgate with hlook | hgate
    · simp [hpc, Pc.atPauseLook] at hlook
    · exact h.accepting.trans hgate
  | takesOver _ _ hstate => simp [hstate] at hs
  | tears hpc _ _ hstate =>
    rcases hstate with hstate | hstate
    · exact absurd (hstate ▸ hs) (hunloads hpc)
    · simp [hstate] at hs
  | resumes h => omega

/-- The core of a RUNNING engine stays. -/
theorem core (h : Softly e pc o slice) (hloads : slice.engine.loads = e.loads)
    (hunloads : pc.unloads → e.state ≠ .running) (hs : slice.engine.state = .running) :
    slice.engine.core = e.core := by
  cases h with
  | keeps h | drained _ _ h => exact h.core
  | admits _ _ _ _ hcore | done _ _ _ hcore | yields _ _ _ hcore => exact hcore
  | takesOver _ _ hstate => simp [hstate] at hs
  | tears hpc _ _ hstate =>
    rcases hstate with hstate | hstate
    · exact absurd (hstate ▸ hs) (hunloads hpc)
    · simp [hstate] at hs
  | resumes h => omega

/-- A drain begins when a pause has looked. -/
theorem drains (h : Softly e pc o slice) (hloads : slice.engine.loads = e.loads)
    (hslice : slice.pc.drainsPause) : pc.drainsPause ∨ pc.atPauseLook := by
  cases h with
  | keeps _ _ hplain => simp [hplain.1] at hslice
  | admits _ _ hserves => simp [Pc.not_drainsPause_of_serves hserves] at hslice
  | done _ hresult =>
    obtain ⟨result, hresult⟩ := hresult
    simp [hresult, Pc.drainsPause] at hslice
  | yields hpc => exact .inr hpc
  | drained hpc => exact .inl (hpc ▸ rfl)
  | takesOver hpc => exact .inl (hpc ▸ rfl)
  | tears _ hplain => simp [hplain.2] at hslice
  | resumes h => omega

/-- A pause takes the engine over when its drain is over. -/
theorem takeover (h : Softly e pc o slice) (hloads : slice.engine.loads = e.loads)
    (hslice : slice.pc.atTakeover) : slice.engine.activeRequests = 0 ∨ o = .drainTimeout := by
  have hdrains := Pc.drainsPause_of_atTakeover hslice
  cases h with
  | keeps _ _ hplain => simp [hplain.1] at hdrains
  | admits _ _ hserves => simp [Pc.not_atTakeover_of_serves hserves] at hslice
  | done _ hresult =>
    obtain ⟨result, hresult⟩ := hresult
    simp [hresult, Pc.atTakeover] at hslice
  | yields _ hdrain => simp [hdrain, Pc.atTakeover] at hslice
  | drained _ _ h hover => exact hover.imp_left h.activeRequests.trans
  | takesOver _ hdestroy => simp [hdestroy, Pc.atTakeover] at hslice
  | tears _ hplain => simp [hplain.2] at hdrains
  | resumes h => omega

/-- The engine leaves RUNNING when a pause takes it over. -/
theorem leaves (h : Softly e pc o slice) (hloads : slice.engine.loads = e.loads)
    (hunloads : pc.unloads → e.state ≠ .running) (hrunning : e.state = .running)
    (hs : slice.engine.state ≠ .running) :
    pc.atTakeover ∧ slice.engine.activeRequests = e.activeRequests := by
  cases h with
  | keeps h | drained _ _ h => exact absurd (h.state.trans hrunning) hs
  | admits _ _ _ hstate | done _ _ hstate | yields _ _ hstate =>
    exact absurd (hstate.trans hrunning) hs
  | takesOver hpc _ _ hactive => exact ⟨hpc ▸ rfl, hactive⟩
  | tears hpc => exact absurd hrunning (hunloads hpc)
  | resumes h => omega

/-- An engine that is torn down is not RUNNING. -/
theorem unloads (h : Softly e pc o slice) (hloads : slice.engine.loads = e.loads)
    (hunloads : pc.unloads → e.state ≠ .running) (hslice : slice.pc.unloads) :
    slice.engine.state ≠ .running := by
  cases h with
  | keeps _ _ hplain => simp [hplain.2] at hslice
  | admits _ _ hserves => simp [Pc.not_unloads_of_serves hserves] at hslice
  | done _ hresult =>
    obtain ⟨result, hresult⟩ := hresult
    simp [hresult, Pc.unloads, Pc.role] at hslice
  | yields _ hdrain => simp [hdrain, Pc.unloads, Pc.role] at hslice
  | drained _ htakeover => simp [htakeover, Pc.unloads, Pc.role, Critical.role] at hslice
  | takesOver _ _ hstate => simp [hstate]
  | tears hpc _ _ hstate =>
    rcases hstate with hstate | hstate
    · exact hstate ▸ hunloads hpc
    · simp [hstate]
  | resumes h => omega

end Softly

namespace EngineSys

variable {s : EngineSys} {k : Nat}

/-- How a slice changes the number of threads that satisfy `P`. -/
theorem countP_settle {P : Pc → Bool} (hP : P .created = false) {th : Thread} {slice : Slice}
    (hth : s.threads[k]? = some th) :
    (s.settle k th slice).threads.countP (fun x => P x.pc) + (if P th.pc then 1 else 0) =
      s.threads.countP (fun x => P x.pc) + if P slice.pc then 1 else 0 := by
  obtain ⟨hk, rfl⟩ := List.getElem?_eq_some_iff.mp hth
  have hle : (if P s.threads[k].pc then 1 else 0) ≤ s.threads.countP fun x => P x.pc :=
    List.boole_getElem_le_countP (p := fun x : Thread => P x.pc) hk
  have hnew : (if slice.spawn then [({ op := .recover } : Thread)] else []).countP
      (fun x => P x.pc) = 0 := by
    split_ifs <;> simp [hP]
  simp only [settle, List.countP_append, List.countP_set hk, hnew]
  omega

end EngineSys

-- ════════════════════════════════════════════════════════════════════════
-- Soft yields
-- ════════════════════════════════════════════════════════════════════════

/-- An engine that is told to yield, with what an observer notes: how many loads were begun
before, whether a pause has taken the lock, and whether a drain has run out of time. -/
structure SoftYield where
  sys : EngineSys
  loads : Nat
  yielding : Bool := false
  overdue : Bool := false
  deriving DecidableEq, Repr

namespace SoftYield

variable {s t : SoftYield} {k : Nat} {o : Outcome} {l : Label}

/-- A pause takes the lock and looks at the state. -/
def takesLock (s : SoftYield) : Label → Bool
  | .run k _ => (s.sys.pcAt k).any Pc.atPauseLook
  | _ => false

def timesOut : Label → Bool
  | .run _ o => o == .drainTimeout
  | _ => false

def step (s : SoftYield) (l : Label) : Option SoftYield :=
  (s.sys.step l).map fun sys =>
    { s with
      sys
      yielding := s.yielding || s.takesLock l
      overdue := s.overdue || timesOut l }

/-- A RUNNING engine with requests in flight and nothing else. -/
structure Serving (s : SoftYield) : Prop where
  state : s.sys.engine.state = .running
  core : s.sys.engine.core.isSome
  threads : ∀ th ∈ s.sys.threads, th.pc.serves ∨ th.pc.isFinished
  counted : s.sys.engine.activeRequests = s.sys.threads.countP fun th => th.pc.serves
  loads : s.sys.engine.loads = s.loads
  yielding : s.yielding = false
  overdue : s.overdue = false

def system : Transition.System SoftYield Label := ⟨Serving, step⟩

/-- Requests, soft pauses and resumes, and no core that dies. -/
def soft (_ : SoftYield) : Label → Bool
  | .spawn op | .call op => op.isSoft
  | .run _ o => o != .coreDead

/-- What holds until the engine is loaded again. -/
structure Window (s : SoftYield) : Prop where
  threads : ∀ th ∈ s.sys.threads, th.pc.soft ∨ th.pc = .created ∧ th.op.isSoft
  loading : s.sys.engine.state.isLoading = false
  core : s.sys.engine.state = .running → s.sys.engine.core.isSome
  refuses : s.yielding → s.sys.engine.state = .running → s.sys.engine.accepting = false
  counted : s.sys.engine.activeRequests = s.sys.threads.countP fun th => th.pc.serves
  drains : ∀ k, s.sys.At Pc.drainsPause k → s.yielding
  takeover : ∀ k, s.sys.At Pc.atTakeover k → s.sys.engine.activeRequests = 0 ∨ s.overdue
  left : s.sys.engine.state ≠ .running → s.sys.engine.activeRequests = 0 ∨ s.overdue
  unloads : ∀ k, s.sys.At Pc.unloads k → s.sys.engine.state ≠ .running

namespace Window

theorem of_serving (h : s.Serving) : s.Window := by
  have hnot {P : Pc → Bool} (hserves : ∀ pc : Pc, pc.serves → P pc = false)
      (hfinished : ∀ result, P (.finished result) = false) (k : Nat) : ¬ s.sys.At P k := by
    rintro ⟨pc, hpc, hP⟩
    obtain ⟨th, hth, rfl⟩ := Option.map_eq_some_iff.mp hpc
    rcases h.threads th (List.mem_of_getElem? hth) with hs | hf
    · simp [hserves _ hs] at hP
    · obtain ⟨result, hresult⟩ := Pc.eq_finished hf
      simp [hresult, hfinished] at hP
  refine ⟨fun th hth => ?_, by rw [h.state]; rfl, fun _ => h.core, by simp [h.yielding], h.counted,
    fun k hk => ?_, fun k hk => ?_, by simp [h.state], fun k hk => ?_⟩
  · refine .inl ?_
    rcases h.threads th hth with hs | hf
    · exact Pc.soft_of_serves hs
    · obtain ⟨result, hresult⟩ := Pc.eq_finished hf
      rw [hresult]
      rfl
  · exact absurd hk (hnot (fun _ => Pc.not_drainsPause_of_serves) (fun _ => rfl) k)
  · exact absurd hk (hnot (fun _ => Pc.not_atTakeover_of_serves) (fun _ => rfl) k)
  · exact absurd hk (hnot (fun _ => Pc.not_unloads_of_serves) (fun _ => rfl) k)

theorem spawn {sys : EngineSys} {op : Op} (h : s.Window) (hop : op.isSoft)
    (hsys : sys = s.sys.spawn op) : Window { s with sys } := by
  subst hsys
  have hat {P : Pc → Bool} (hP : P .created = false) {k : Nat} (hk : (s.sys.spawn op).At P k) :
      s.sys.At P k := (EngineSys.at_spawn hP).mp hk
  refine ⟨fun th hth => ?_, h.loading, h.core, h.refuses, ?_, fun k hk => h.drains k (hat rfl hk),
    fun k hk => h.takeover k (hat rfl hk), h.left, fun k hk => h.unloads k (hat rfl hk)⟩
  · rcases List.mem_append.mp hth with hth | hth
    · exact h.threads th hth
    · obtain rfl := List.mem_singleton.mp hth
      exact .inr ⟨rfl, hop⟩
  · simp [EngineSys.spawn, h.counted, Pc.serves]

/-- No request is admitted behind a closed gate, or while the engine is not RUNNING. -/
theorem active_le (h : s.Window) {pc : Pc} {slice : Slice}
    (hsoftly : Softly s.sys.engine pc o slice)
    (hloads : slice.engine.loads = s.sys.engine.loads)
    (hclosed : s.yielding ∨ s.sys.engine.state ≠ .running) :
    slice.engine.activeRequests ≤ s.sys.engine.activeRequests := by
  refine (hsoftly.active hloads).resolve_right fun havailable => ?_
  simp only [VLLMEngine.isAvailable, Bool.and_eq_true, beq_iff_eq] at havailable
  rcases hclosed with hyielding | hs
  · simp [h.refuses hyielding havailable.1] at havailable
  · exact hs havailable.1

/-- **Step lemma**, for a thread that runs. -/
theorem settle (h : s.Window) {th : Thread} {slice : Slice} {yielding overdue : Bool}
    (hth : s.sys.threads[k]? = some th) (ho : o ≠ .coreDead)
    (hpc : s.sys.engine.runPc k th.op th.pc o = some slice)
    (hloads : slice.engine.loads = s.sys.engine.loads)
    (hyielding : yielding = (s.yielding || th.pc.atPauseLook))
    (hoverdue : s.overdue ∨ o = .drainTimeout → overdue) :
    Window ⟨s.sys.settle k th slice, s.loads, yielding, overdue⟩ := by
  have hat := EngineSys.pcAt_of_threads hth
  have hsoftly := VLLMEngine.runPc_softly (h.threads th (List.mem_of_getElem? hth)) ho h.loading hpc
  have hstate := hsoftly.state hloads
  have hleave (hs : s.sys.engine.state ≠ .running) : slice.engine.state ≠ .running := by
    rcases hstate with hstate | hstate | hstate <;> simp [hstate, hs]
  have hunloads (hunl : th.pc.unloads) : s.sys.engine.state ≠ .running :=
    h.unloads k ⟨_, hat, hunl⟩
  have hidle (hclosed : s.yielding ∨ s.sys.engine.state ≠ .running)
      (hzero : s.sys.engine.activeRequests = 0 ∨ s.overdue) :
      slice.engine.activeRequests = 0 ∨ overdue := by
    refine hzero.imp (fun hzero => ?_) fun hover => hoverdue (.inl hover)
    have := h.active_le hsoftly hloads hclosed
    omega
  refine ⟨fun x hx => ?_, ?_, fun hs => ?_, fun hy hs => ?_, ?_, fun j hj => ?_, fun j hj => ?_,
    fun hs => ?_, fun j hj => ?_⟩
  · have hspawn := VLLMEngine.runPc_spawn ho hpc
    obtain ⟨j, hx⟩ := List.mem_iff_getElem?.mp hx
    rcases EngineSys.thread_of_settle hth hspawn hx with ⟨-, -, hxpc⟩ | ⟨-, hx⟩
    · exact .inl (hxpc ▸ hsoftly.soft hloads)
    · exact h.threads x (List.mem_of_getElem? hx)
  · show slice.engine.state.isLoading = false
    rcases hstate with hstate | hstate | hstate
    · exact hstate ▸ h.loading
    · rw [hstate]
      rfl
    · rw [hstate]
      rfl
  · show slice.engine.core.isSome
    rw [hsoftly.core hloads hunloads hs]
    exact h.core (by_contra fun hrunning => hleave hrunning hs)
  · refine hsoftly.accepting hloads hunloads ?_ hs
    have hrunning : s.sys.engine.state = .running := by_contra fun hrunning => hleave hrunning hs
    have hy : yielding = true := hy
    rw [hyielding, Bool.or_eq_true] at hy
    exact hy.symm.imp_right fun hy => h.refuses hy hrunning
  · have hcount : (s.sys.settle k th slice).threads.countP (fun x => x.pc.serves) +
        (if th.pc.serves then 1 else 0) = s.sys.threads.countP (fun x => x.pc.serves) +
        if slice.pc.serves then 1 else 0 := EngineSys.countP_settle rfl hth
    have hactive := hsoftly.counted hloads fun hserves => ?_
    · have := h.counted
      show slice.engine.activeRequests = (s.sys.settle k th slice).threads.countP fun x => x.pc.serves
      omega
    · rw [h.counted]
      exact List.countP_pos_iff.mpr ⟨th, List.mem_of_getElem? hth, hserves⟩
  · show yielding = true
    rw [hyielding, Bool.or_eq_true]
    rcases (EngineSys.at_settle rfl hth).mp hj with ⟨-, hself⟩ | ⟨-, hj⟩
    · exact (hsoftly.drains hloads hself).imp_left fun hdrains => h.drains k ⟨_, hat, hdrains⟩
    · exact .inl (h.drains j hj)
  · show slice.engine.activeRequests = 0 ∨ overdue
    rcases (EngineSys.at_settle rfl hth).mp hj with ⟨-, hself⟩ | ⟨-, hj⟩
    · exact (hsoftly.takeover hloads hself).imp_right fun htimeout => hoverdue (.inr htimeout)
    · refine hidle (.inl (h.drains j ?_)) (h.takeover j hj)
      obtain ⟨pc, hpc, htakeover⟩ := hj
      exact ⟨pc, hpc, Pc.drainsPause_of_atTakeover htakeover⟩
  · show slice.engine.activeRequests = 0 ∨ overdue
    by_cases hrunning : s.sys.engine.state = .running
    · obtain ⟨htakeover, hactive⟩ := hsoftly.leaves hloads hunloads hrunning hs
      rw [hactive]
      exact (h.takeover k ⟨_, hat, htakeover⟩).imp_right fun hover => hoverdue (.inl hover)
    · exact hidle (.inr hrunning) (h.left hrunning)
  · show slice.engine.state ≠ .running
    rcases (EngineSys.at_settle rfl hth).mp hj with ⟨-, hself⟩ | ⟨-, hj⟩
    · exact hsoftly.unloads hloads hunloads hself
    · exact hleave (h.unloads j hj)

end Window

/-- The window, until the engine is loaded again. -/
structure Watched (s : SoftYield) : Prop where
  le : s.loads ≤ s.sys.engine.loads
  window : s.sys.engine.loads = s.loads → s.Window

namespace Watched

theorem runThread {sys : EngineSys} {yielding overdue : Bool} (h : s.Watched) (ho : o ≠ .coreDead)
    (hrun : s.sys.runThread k o = some sys)
    (hyielding : ∀ pc, s.sys.pcAt k = some pc → yielding = (s.yielding || pc.atPauseLook))
    (hoverdue : s.overdue ∨ o = .drainTimeout → overdue) :
    Watched ⟨sys, s.loads, yielding, overdue⟩ := by
  obtain ⟨th, slice, hth, hpc, rfl⟩ := EngineSys.runThread_eq_some.mp hrun
  have hle : s.sys.engine.loads ≤ slice.engine.loads := (VLLMEngine.runPc_moves hpc).le
  refine ⟨h.le.trans hle, fun heq => ?_⟩
  have heq : slice.engine.loads = s.loads := heq
  have hloads : s.sys.engine.loads = s.loads := le_antisymm (heq ▸ hle) h.le
  exact (h.window hloads).settle hth ho hpc (heq.trans hloads.symm)
    (hyielding _ (EngineSys.pcAt_of_threads hth)) hoverdue

/-- **Step lemma**. -/
theorem step (h : s.Watched) (hok : s.soft l) (hstep : s.step l = some t) : t.Watched := by
  obtain ⟨sys, hsys, rfl⟩ := Option.map_eq_some_iff.mp hstep
  have hspawn {op : Op} (hop : op.isSoft) : Watched { s with sys := s.sys.spawn op } :=
    ⟨h.le, fun hloads => (h.window hloads).spawn hop rfl⟩
  obtain ⟨op, -, rfl, rfl⟩ | ⟨op, -, rfl, hrun⟩ | ⟨k, o, rfl, hrun⟩ := EngineSys.step_cases hsys
  · simpa [takesLock, timesOut] using hspawn hok
  · refine (hspawn hok).runThread Outcome.noConfusion hrun (fun pc hpc => ?_) (fun hover => ?_)
    · rw [EngineSys.pcAt_spawn, if_pos rfl] at hpc
      cases hpc
      rfl
    · simpa [timesOut] using hover
  · refine h.runThread (by simpa [soft] using hok) hrun (fun pc hpc => ?_) (fun hover => ?_)
    · simp [takesLock, hpc]
    · simpa [timesOut] using hover

end Watched

/-- **Run lemma**: the window holds until the engine is loaded again. -/
theorem watched_of_reach (h : system.Reach (soft · ·) s) : s.Watched := by
  refine h.invariant (fun s hs => ?_) fun _ _ _ hs hok hstep => hs.step hok hstep
  exact ⟨hs.loads.ge, fun _ => .of_serving hs⟩

/-- A request is admitted. -/
def Admits (s t : SoftYield) : Prop := ∃ k, ¬ s.sys.At Pc.serves k ∧ t.sys.At Pc.serves k

/-- What a soft yield promises until the engine is loaded again: no request is admitted, an
output that arrives before a drain runs out of time does not abort its request, a request with
an output is served when its outputs end, and the engine is torn down only when no request is
left or a drain has run out of time. -/
structure Drains (s : SoftYield) : Prop where
  refuses : s.yielding → ∀ l t, s.soft l → s.step l = some t → ¬ s.Admits t
  completes : ∀ k weights hasOutput t, s.overdue = false →
    s.sys.pcAt k = some (.generating weights hasOutput) → s.step (.run k .output) = some t →
    t.sys.pcAt k = some (.generating weights true)
  served : ∀ k weights t, s.sys.pcAt k = some (.generating weights true) →
    s.step (.run k .ended) = some t → t.sys.pcAt k = some (.finished (.served weights))
  torn : s.sys.engine.core = none ∨ (∃ k, s.sys.At Pc.holds k) →
    (∀ k, ¬ s.sys.At Pc.serves k) ∨ s.overdue

namespace Window

theorem not_serves (h : s.Window) (hzero : s.sys.engine.activeRequests = 0) (k : Nat) :
    ¬ s.sys.At Pc.serves k := by
  rintro ⟨pc, hpc, hserves⟩
  obtain ⟨th, hth, rfl⟩ := Option.map_eq_some_iff.mp hpc
  have hcounted := h.counted.symm.trans hzero
  exact List.countP_eq_zero.mp hcounted th (List.mem_of_getElem? hth) hserves

/-- No request is left when the engine has left RUNNING, or a drain has run out of time. -/
theorem idle_of_state (h : s.Window) (hs : s.sys.engine.state ≠ .running) :
    (∀ k, ¬ s.sys.At Pc.serves k) ∨ s.overdue :=
  (h.left hs).imp_left h.not_serves

theorem not_available (h : s.Window) (hyielding : s.yielding) :
    s.sys.engine.isAvailable = false := by
  by_cases hs : s.sys.engine.state = .running
  · simp [VLLMEngine.isAvailable, h.refuses hyielding hs]
  · simp [VLLMEngine.isAvailable, hs]

/-- Behind a closed gate no thread begins to serve. -/
theorem serves_of_runThread {sys : EngineSys} (h : s.Window) (hyielding : s.yielding)
    (ho : o ≠ .coreDead) (hrun : s.sys.runThread k o = some sys) {j : Nat}
    (hj : sys.At Pc.serves j) : s.sys.At Pc.serves j := by
  obtain ⟨th, slice, hth, hpc, rfl⟩ := EngineSys.runThread_eq_some.mp hrun
  have hsoftly := VLLMEngine.runPc_softly (h.threads th (List.mem_of_getElem? hth)) ho h.loading hpc
  rcases (EngineSys.at_settle rfl hth).mp hj with ⟨rfl, hself⟩ | ⟨-, hj⟩
  · refine ⟨_, EngineSys.pcAt_of_threads hth, (hsoftly.serves hself).resolve_right ?_⟩
    simp [h.not_available hyielding]
  · exact hj

theorem unloads_of_holds (h : s.Window) (hk : s.sys.At Pc.holds k) : s.sys.At Pc.unloads k := by
  obtain ⟨pc, hpc, hholds⟩ := hk
  refine ⟨pc, hpc, ?_⟩
  obtain ⟨th, hth, rfl⟩ := Option.map_eq_some_iff.mp hpc
  obtain ⟨teardown, phase, hdestroy⟩ := Pc.exists_teardown hholds
  rcases h.threads th (List.mem_of_getElem? hth) with hsoft | ⟨hcreated, -⟩
  · rw [hdestroy] at hsoft ⊢
    cases teardown <;> first | rfl | cases hsoft
  · simp [hcreated] at hdestroy

end Window

/-- **Soft yields drain**: from the first pause that takes the lock until a resume loads the
engine again. -/
theorem drains_of_reach (h : system.Reach (soft · ·) s) (hloads : s.sys.engine.loads = s.loads) :
    s.Drains := by
  have hwindow := (watched_of_reach h).window hloads
  refine ⟨fun hyielding l t hok hstep => ?_, fun k weights hasOutput t hover hpc hstep => ?_,
    fun k weights t hpc hstep => ?_, fun htorn => ?_⟩
  · rintro ⟨k, hnot, hserves⟩
    obtain ⟨sys, hsys, rfl⟩ := Option.map_eq_some_iff.mp hstep
    obtain ⟨op, -, rfl, rfl⟩ | ⟨op, -, rfl, hrun⟩ | ⟨j, o, rfl, hrun⟩ := EngineSys.step_cases hsys
    · exact hnot ((EngineSys.at_spawn rfl).mp hserves)
    · have hspawned : (s.sys.spawn op).At Pc.serves k :=
        (hwindow.spawn hok rfl).serves_of_runThread hyielding Outcome.noConfusion hrun hserves
      exact hnot ((EngineSys.at_spawn rfl).mp hspawned)
    · exact hnot (hwindow.serves_of_runThread hyielding (by simpa [soft] using hok) hrun hserves)
  · obtain ⟨sys, hsys, rfl⟩ := Option.map_eq_some_iff.mp hstep
    obtain ⟨th, slice, hth, hslice, rfl⟩ :=
      EngineSys.runThread_eq_some.mp (EngineSys.runThread_of_run hsys)
    have hth' : th.pc = .generating weights hasOutput :=
      Option.some.inj ((EngineSys.pcAt_of_threads hth).symm.trans hpc)
    have hrunning : s.sys.engine.state = .running := by
      by_contra hs
      rcases hwindow.idle_of_state hs with hidle | hoverdue
      · exact hidle k ⟨_, hpc, rfl⟩
      · simp [hover] at hoverdue
    rw [hth'] at hslice
    simp only [VLLMEngine.runPc, VLLMEngine.generateStep, hrunning, if_true] at hslice
    cases hslice
    exact EngineSys.Ownership.settle_self hth _
  · obtain ⟨sys, hsys, rfl⟩ := Option.map_eq_some_iff.mp hstep
    obtain ⟨th, slice, hth, hslice, rfl⟩ :=
      EngineSys.runThread_eq_some.mp (EngineSys.runThread_of_run hsys)
    have hth' : th.pc = .generating weights true :=
      Option.some.inj ((EngineSys.pcAt_of_threads hth).symm.trans hpc)
    rw [hth'] at hslice
    cases hslice
    exact EngineSys.Ownership.settle_self hth _
  · refine hwindow.idle_of_state fun hs => ?_
    rcases htorn with hcore | ⟨k, hk⟩
    · simpa [hcore] using hwindow.core hs
    · exact hwindow.unloads k (hwindow.unloads_of_holds hk) hs

/-- A soft pause with one request in flight, a request that is refused, the last output, and
the teardown. -/
def drainOne : List Label :=
  [.call (.pause .normal), .run 1 .go, .call (.generate "m"), .run 0 .output, .run 0 .ended] ++
    List.replicate 6 (.run 1 .go)

theorem drains_drainOne :
    ∃ s, system.Reach (soft · ·) s ∧ s.Drains ∧ s.yielding ∧ s.sys.engine.state = .unloading := by
  let s₀ : SoftYield :=
    { sys :=
        { engine :=
            { state := .running, core := some ⟨"m"⟩, model := "m", activeRequests := 1,
              childPids := [1], live := [1], loads := 1 }
          threads := [⟨.generate "m", .generating "m" false, 0⟩] }
      loads := 1 }
  have hserving : s₀.Serving := ⟨rfl, rfl, by simp [s₀, Pc.serves], rfl, rfl, rfl, rfl⟩
  have hfinal : (system.execGuarded (soft · ·) s₀ drainOne).any (fun s =>
      s.sys.engine.loads = s.loads ∧ s.yielding ∧ s.sys.engine.state = .unloading) = true := by
    decide +kernel
  obtain ⟨s, hrun, hs⟩ := (Option.any_eq_true _ _).mp hfinal
  obtain ⟨hloads, hyielding, hstate⟩ := of_decide_eq_true hs
  have hreach : system.Reach (soft · ·) s := .execGuarded (.init hserving) hrun
  exact ⟨s, hreach, drains_of_reach hreach hloads, hyielding, hstate⟩

end SoftYield

end OpenModel.Inference
