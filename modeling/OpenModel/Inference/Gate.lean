import OpenModel.Inference.KeptResume

/-!
# The gate of a soft yield

A soft pause closes the gate of the engine (`_accepting`) and drains it. The takeover behind the
drain, or that of another pause, leads to a teardown, which opens the gate again. So the gate is
never left closed: an engine at rest that is RUNNING is available.

## Main results

- `EngineSys.Working.movesGate`: what one slice does to the gate
- `EngineSys.Gated.settle`: a closed gate will be opened
- `EngineSys.Gated.accepting_of_quiet`: at rest it is open
-/

namespace OpenModel.Inference

/-- A soft pause between its look and its takeover. -/
def Pc.closes : Pc → Bool
  | drain (.pause _) | lock (.pauseTakeover _) => true
  | _ => false

/-- A pause whose teardown opens the gate. -/
def Pc.reopens : Pc → Bool
  | lock (.pauseDestroy _) | destroy (.pause _) _ => true
  | _ => false

namespace VLLMEngine

/-- What a slice does to the gate. -/
inductive MovesGate (e : VLLMEngine) (pc : Pc) (slice : Slice) : Prop
  | opens (h : slice.engine.accepting = true)
  | closes (hs : slice.engine.state = .running) (hpc : slice.pc.closes)
  /-- a RUNNING engine is taken down only by a pause that reopens -/
  | keeps (h : slice.engine.accepting = e.accepting)
      (hrun : e.state = .running → slice.engine.state = .running ∨ slice.pc.reopens)
      (hcloses : e.state = .running → pc.closes → slice.pc.closes ∨ slice.pc.reopens)
      (hreopens : pc.reopens → slice.pc.reopens)

variable {e e' : VLLMEngine} {k : Nat} {op : Op} {pc : Pc} {o : Outcome} {slice : Slice}

/-- A slice of no pause that leaves the state. -/
theorem movesGate_same (h : slice.engine.accepting = e.accepting)
    (hstate : slice.engine.state = e.state) (hcloses : pc.closes = false)
    (hreopens : pc.reopens = false) : MovesGate e pc slice :=
  .keeps h (fun hs => .inl (hstate.trans hs)) (fun _ hpc => Bool.noConfusion (hcloses.symm.trans hpc))
    fun hpc => Bool.noConfusion (hreopens.symm.trans hpc)

/-- A slice of no pause on an engine that is not RUNNING. -/
theorem movesGate_idle (h : slice.engine.accepting = e.accepting) (hstate : e.state ≠ .running)
    (hreopens : pc.reopens = false) : MovesGate e pc slice :=
  .keeps h (fun hs => absurd hs hstate) (fun hs => absurd hs hstate)
    fun hpc => Bool.noConfusion (hreopens.symm.trans hpc)

theorem enter_movesGate (hop : op.mining) : MovesGate e .created (e.enter op) := by
  cases op with
  | generate requested =>
    simp only [enter, beginGenerate]
    split <;> exact movesGate_same rfl rfl rfl rfl
  | start path | pause u | resume => exact movesGate_same rfl rfl rfl rfl
  | stop | switchModel new | recover => cases hop

theorem pauseReturn_accepting {c : Caller} : (e.pauseReturn c).engine.accepting = e.accepting := by
  cases c <;> rfl

theorem pauseReturn_state {c : Caller} : (e.pauseReturn c).engine.state = e.state := by
  cases c <;> rfl

/-- A load that ends. -/
theorem reloadReturn_movesGate {c : ReloadCaller} (hacc : e'.accepting = e.accepting)
    (hstate : e.state ≠ .running) (hreopens : pc.reopens = false) :
    MovesGate e pc (e'.reloadReturn c) := by
  cases c with
  | pause c => exact movesGate_idle (pauseReturn_accepting.trans hacc) hstate hreopens
  | resume c =>
    cases c with
    | external => exact movesGate_idle hacc hstate hreopens
    | switchModel new => exact .opens rfl
  | recover => exact movesGate_idle hacc hstate hreopens

/-- The blocks under the lock. -/
theorem critical_movesGate {block : Critical} (hfailed : (Pc.lock block).failed = false)
    (hstop : block ≠ .stopBegin) (hdead : e.state ≠ .dead)
    (hrole : ∀ ρ, block.role = some ρ → ρ.allows e.state) :
    MovesGate e (.lock block) (e.critical block) := by
  cases block with
  | startBegin path => exact .opens rfl
  | startFailed | reloadGiveUp r => cases hfailed
  | startFinish =>
    have hs : e.state ≠ .running := by
      rcases loader_state (hrole .loader rfl) with hs | hs <;> simp [hs]
    simp only [critical]
    split_ifs
    · exact movesGate_idle rfl hs rfl
    · exact movesGate_idle rfl hs rfl
  | pauseLook u c =>
    simp only [critical]
    split_ifs with hl hr hu
    · exact movesGate_same pauseReturn_accepting pauseReturn_state rfl rfl
    · exact movesGate_same pauseReturn_accepting pauseReturn_state rfl rfl
    · exact .closes (not_ne_iff.mp hr) rfl
    · exact .keeps rfl (fun _ => .inr rfl) (fun _ => Bool.noConfusion) Bool.noConfusion
  | pauseTakeover c =>
    simp only [critical]
    split_ifs with hr
    · exact .keeps pauseReturn_accepting (fun hs => absurd hs hr) (fun hs => absurd hs hr)
        Bool.noConfusion
    · exact .keeps rfl (fun _ => .inr rfl) (fun _ _ => .inr rfl) Bool.noConfusion
  | pauseDestroy c => exact .keeps rfl (fun _ => .inr rfl) (fun _ _ => .inr rfl) fun _ => rfl
  | resumeLook c =>
    have hreturn (pending : Bool) : MovesGate e (.lock (.resumeLook c))
        ({ e with pendingResume := pending }.release.resumeReturn c) := by
      cases c with
      | external => exact movesGate_same rfl rfl rfl rfl
      | switchModel new => exact .opens rfl
    simp only [critical, hdead, if_false]
    split_ifs with hu hp
    · exact hreturn true
    · exact hreturn e.pendingResume
    · exact movesGate_idle rfl (by simp [not_ne_iff.mp hp]) rfl
  | reloadFinish r =>
    have hs : e.state ≠ .running := by
      rcases loader_state (hrole .loader rfl) with hs | hs <;> simp [hs]
    simp only [critical]
    split_ifs
    · exact movesGate_idle rfl hs rfl
    · exact reloadReturn_movesGate rfl hs rfl
  | recoverBegin =>
    simp only [critical, hdead, ne_eq, not_false_eq_true, if_true]
    exact movesGate_same rfl rfl rfl rfl
  | stopBegin => exact absurd rfl hstop

/-- Teardowns. -/
theorem destroyStep_movesGate {t : Teardown} {phase : Phase} (ht : t ≠ .stop) (ho : o ≠ .cudaError)
    (hdead : e.state ≠ .dead) (hrole : t.role.allows e.state)
    (h : e.destroyStep t phase o = some slice) : MovesGate e (.destroy t phase) slice := by
  have hrun : e.state ≠ .running := by
    cases t with
    | start | reload r => rcases loader_state hrole with hs | hs <;> simp [hs]
    | pause c => simp [unloader_state hrole]
    | recover => exact absurd (recoverer_state hrole) hdead
    | stop => exact absurd rfl ht
  have hgoes {e' : VLLMEngine} {phase' : Phase} (h : e'.accepting = e.accepting) :
      MovesGate e (.destroy t phase) ⟨e', .destroy t phase', false⟩ :=
    .keeps h (fun hs => absurd hs hrun) (fun hs => absurd hs hrun) fun hpc => by
      cases t <;> first | rfl | cases hpc
  cases phase with
  | abort | exitWait | killWait =>
    cases o <;> cases h
    exact hgoes rfl
  | release =>
    cases o <;> cases h
    · cases t with
      | start => exact movesGate_idle rfl hrun rfl
      | pause c =>
        simp only [destroyed]
        split_ifs
        · exact .opens rfl
        · exact .opens pauseReturn_accepting
      | reload r => exact reloadReturn_movesGate rfl hrun rfl
      | recover => exact absurd (recoverer_state hrole) hdead
      | stop => exact absurd rfl ht
    · exact absurd rfl ho

end VLLMEngine

namespace EngineSys

variable {s t : EngineSys} {j k : Nat} {o : Outcome} {op : Op} {th : Thread} {slice : Slice}

/-- **One slice**. -/
theorem Working.movesGate (hw : s.Working) (ho : Succeeds o) (hth : s.threads[k]? = some th)
    (hslice : s.engine.runPc k th.op th.pc o = some slice) :
    VLLMEngine.MovesGate s.engine th.pc slice := by
  have hmem := List.mem_of_getElem? hth
  have hunfailed := hw.unfailed th hmem
  have hrole := hw.sound.own.allows k th.pc
  cases hp : th.pc with
  | created =>
    rw [hp] at hslice
    cases o <;> cases hslice
    exact VLLMEngine.enter_movesGate (hw.sound.ops th hmem)
  | lock block =>
    rw [hp] at hslice hunfailed
    obtain ⟨l, -, rfl⟩ := VLLMEngine.runPc_block hslice
    have hmoves : VLLMEngine.MovesGate { s.engine with transitionLock := l } (.lock block)
        ({ s.engine with transitionLock := l }.critical block) := by
      refine VLLMEngine.critical_movesGate hunfailed ?_ hw.sound.state_ne_dead fun ρ hρ => ?_
      · rintro rfl
        exact hw.sound.not_stopBegin hth hp
      · exact hrole ρ (pcAt_of_threads hth) (by rw [hp]; exact hρ)
    cases hmoves with
    | opens h => exact .opens h
    | closes hs hpc => exact .closes hs hpc
    | keeps h hrun hcloses hreopens => exact .keeps h hrun hcloses hreopens
  | destroy teardown phase =>
    rw [hp] at hslice
    have hallows : teardown.role.allows s.engine.state :=
      hrole _ (pcAt_of_threads hth) (by rw [hp]; rfl)
    refine VLLMEngine.destroyStep_movesGate ?_ ho.2.1 hw.sound.state_ne_dead hallows hslice
    rintro rfl
    cases hallows
  | drain d =>
    rw [hp] at hslice
    obtain rfl := VLLMEngine.runPc_drain hslice
    cases d with
    | pause c => exact .keeps rfl .inl (fun _ _ => .inl rfl) Bool.noConfusion
    | switchModel new => exact VLLMEngine.movesGate_same rfl rfl rfl rfl
  | load r =>
    rw [hp] at hslice
    cases o <;> cases hslice
    · exact VLLMEngine.movesGate_same rfl rfl rfl rfl
    · exact absurd rfl (ho.2.2 _)
  | startCreate =>
    rw [hp] at hslice
    cases o <;> cases hslice
    · exact VLLMEngine.movesGate_same rfl rfl rfl rfl
    · exact absurd rfl (ho.2.2 _)
  | generating weights hasOutput =>
    rw [hp] at hslice
    cases o with
    | output =>
      simp only [VLLMEngine.runPc, VLLMEngine.generateStep] at hslice
      split_ifs at hslice <;> cases hslice <;> exact VLLMEngine.movesGate_same rfl rfl rfl rfl
    | coreDead => exact absurd rfl ho.1
    | _ => cases hslice <;> exact VLLMEngine.movesGate_same rfl rfl rfl rfl
  | aborting =>
    rw [hp] at hslice
    cases o <;> cases hslice
    exact VLLMEngine.movesGate_same rfl rfl rfl rfl
  | retrySleep r | exitSleep =>
    rw [hp] at hunfailed
    cases hunfailed
  | finished result =>
    rw [hp] at hslice
    cases o <;> cases hslice

/-- A closed gate will be opened. -/
inductive Gated (s : EngineSys) : Prop
  | accepting (h : s.engine.accepting = true)
  /-- by a soft pause, as long as nobody else takes the engine down -/
  | draining (h : s.engine.state = .running) (k : Nat) (hk : s.At Pc.closes k)
  | reopening (k : Nat) (hk : s.At Pc.reopens k)

theorem Gated.spawn (h : s.Gated) : (s.spawn op).Gated := by
  cases h with
  | accepting h => exact .accepting h
  | draining h k hk => exact .draining h k ((at_spawn rfl).mpr hk)
  | reopening k hk => exact .reopening k ((at_spawn rfl).mpr hk)

/-- **Step lemma**. -/
theorem Gated.settle (h : s.Gated) (hw : s.Working) (ho : Succeeds o)
    (hth : s.threads[k]? = some th) (hslice : s.engine.runPc k th.op th.pc o = some slice) :
    (s.settle k th slice).Gated := by
  have hself {P : Pc → Bool} (hP : P .created = false) (hpc : P slice.pc) :
      (s.settle k th slice).At P k := (at_settle hP hth).mpr (.inl ⟨rfl, hpc⟩)
  have hat {P : Pc → Bool} (hk : s.At P k) : P th.pc := (at_of_pcAt (pcAt_of_threads hth)).mp hk
  cases hw.movesGate ho hth hslice with
  | opens h => exact .accepting h
  | closes hs hpc => exact .draining hs k (hself rfl hpc)
  | keeps hacc hrun hcloses hreopens =>
    cases h with
    | accepting h => exact .accepting (hacc.trans h)
    | draining hs j hj =>
      obtain hs' | hre := hrun hs
      · by_cases hjk : j = k
        · subst hjk
          obtain hpc | hre := hcloses hs (hat hj)
          · exact .draining hs' j (hself rfl hpc)
          · exact .reopening j (hself rfl hre)
        · exact .draining hs' j ((at_settle rfl hth).mpr (.inr ⟨hjk, hj⟩))
      · exact .reopening k (hself rfl hre)
    | reopening j hj =>
      by_cases hjk : j = k
      · subst hjk
        exact .reopening j (hself rfl (hreopens (hat hj)))
      · exact .reopening j ((at_settle rfl hth).mpr (.inr ⟨hjk, hj⟩))

theorem Gated.run (h : s.Gated) (hw : s.Working) (ho : Succeeds o)
    (hstep : s.step (.run k o) = some t) : t.Gated := by
  obtain ⟨th, slice, hth, hslice, rfl⟩ := runThread_eq_some.mp (runThread_of_run hstep)
  exact h.settle hw ho hth hslice

theorem Gated.call (h : s.Gated) (hw : s.Working) (hop : op.mining) (hstart : op.isStart = false)
    (hstep : s.step (.call op) = some t) : t.Gated := by
  obtain ⟨slice, hth, hslice, rfl⟩ := thread_of_call hstep
  exact h.spawn.settle (hw.spawn hop hstart) succeeds_go hth hslice

/-- **At rest** the gate is open. -/
theorem Gated.accepting_of_quiet (h : s.Gated) (hquiet : s.Quiet) : s.engine.accepting = true := by
  cases h with
  | accepting h => exact h
  | draining _ k hk =>
    refine absurd hk (hquiet.not_at (fun pc hs => ?_) (fun _ => rfl) k)
    cases pc <;> first | rfl | cases hs
  | reopening k hk =>
    refine absurd hk (hquiet.not_at (fun pc hs => ?_) (fun _ => rfl) k)
    cases pc <;> first | rfl | cases hs

end EngineSys

end OpenModel.Inference
