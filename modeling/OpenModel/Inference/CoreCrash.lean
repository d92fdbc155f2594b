import OpenModel.Inference.Custody

/-!
# Core crashes and mining yields

Mining commands take effect in the order in which they were issued, because the
transition lock is first come, first served. After the last command was a pause and has
looked at the state, the engine is on its way to holding nothing (`Settled`), and in the
runs of `crashSafe` no other thread gets it off that way.

In these runs `start` comes before the first mining command, and nobody calls `stop` or
`switch_model`. A core is reported dead while nobody works on the engine without the lock,
and, once the last command was a pause that has looked (`pausedLast`), only during a
teardown: the recovery then finds what the teardown left. That pause does not look at an
engine that is DEAD, or that owes a reload after its teardown. A teardown that raises leaves
neither a report nor another attempt of its load behind.

## Main results

- `EngineSys.looks_settle`: the queue of commands that have not looked yet
- `EngineSys.Settled.settle`: no other thread interferes with the last pause
- `EngineSys.notRunning_of_quiet`: an engine at rest whose last command was a pause is not
  RUNNING and holds no core
- `EngineSys.pauseWhileDead_running`: a pause of a DEAD engine is forgotten
-/

namespace OpenModel.Inference

namespace Pc

/-- The command that is about to look at the state. -/
def look : Pc → Option Command
  | lock (.pauseLook _ _) => some .pause
  | lock (.resumeLook _) => some .resume
  | _ => none

/-- Undoing a load for a pause. -/
def undoesLoad : Pc → Bool
  | destroy .start _ | destroy (.reload _) _ => true
  | _ => false

/-- Undoing a load for a pause, or giving it up after its last attempt. -/
def endsLoad : Pc → Bool
  | destroy .start _ | destroy (.reload _) _ | lock (.reloadGiveUp _) => true
  | _ => false

/-- In a teardown that no load follows. -/
def takesDown (pendingResume : Bool) : Pc → Bool
  | destroy .start _ | destroy (.reload _) _ => true
  | destroy (.pause _) _ => !pendingResume
  | _ => false

/-- In the drain of a soft pause. -/
def drainsPause : Pc → Bool
  | drain (.pause _) | lock (.pauseTakeover _) => true
  | _ => false

theorem not_drainsPause_of_serves {pc : Pc} (h : pc.serves) : pc.drainsPause = false := by
  obtain ⟨weights, hasOutput, rfl⟩ | rfl := serves_cases h
  · rfl
  · rfl

theorem not_takesDown_of_serves {pc : Pc} (h : pc.serves) (pendingResume : Bool) :
    pc.takesDown pendingResume = false := by
  obtain ⟨weights, hasOutput, rfl⟩ | rfl := serves_cases h
  · rfl
  · rfl

theorem role_of_undoesLoad {pc : Pc} (h : pc.undoesLoad) : pc.role = some .loader := by
  cases pc with
  | destroy t phase => cases t <;> first | rfl | cases h
  | _ => cases h

theorem owns_of_endsLoad {pc : Pc} (h : pc.endsLoad) : pc.owns := by
  cases pc with
  | lock block => cases block <;> first | rfl | cases h
  | destroy t phase => rfl
  | _ => cases h

theorem owns_of_takesDown {pc : Pc} {pendingResume : Bool} (h : pc.takesDown pendingResume) :
    pc.owns := by
  cases pc <;> first | rfl | cases h

theorem waits_of_look {pc : Pc} {c : Command} (h : pc.look = some c) : pc.waits := by
  cases pc <;> simp_all [look, waits]

theorem look_eq_none {pc : Pc} (h : ¬ pc.waits) : pc.look = none := by
  by_contra hne
  obtain ⟨c, hc⟩ := Option.ne_none_iff_exists'.mp hne
  exact h (waits_of_look hc)

end Pc

namespace EngineSys

variable {s t : EngineSys} {k : Nat} {o : Outcome} {l : Label}

-- ════════════════════════════════════════════════════════════════════════
-- The queue of commands
-- ════════════════════════════════════════════════════════════════════════

/-- The commands that wait for the lock to look at the state, in order. -/
def looks (s : EngineSys) : List Command :=
  s.engine.transitionLock.waiters.filterMap fun k => (s.pcAt k).bind Pc.look

theorem lt_of_pcAt {pc : Pc} (h : s.pcAt k = some pc) : k < s.threads.length := by
  by_contra hk
  simp [pcAt, List.getElem?_eq_none (by omega : s.threads.length ≤ k)] at h

theorem looks_spawn (hlock : s.LockAgrees) {op : Op} : (s.spawn op).looks = s.looks := by
  refine List.filterMap_congr fun j hj => ?_
  obtain ⟨pc, hpc, -⟩ := (hlock.mem_waiters j).mp hj
  have := lt_of_pcAt hpc
  rw [pcAt_spawn, if_neg (by omega)]

/-- **Order of the commands**: the command of the thread that runs leaves the head of the
queue, a new one joins the end. -/
theorem looks_settle (hlock : s.LockAgrees) {th : Thread} {slice : Slice}
    (hth : s.threads[k]? = some th) (hpc : s.engine.runPc k th.op th.pc o = some slice) :
    ∃ rest, s.looks = th.pc.look.toList ++ rest ∧
      (s.settle k th slice).looks = rest ++ slice.pc.look.toList := by
  obtain ⟨hwaiters, hk⟩ := waiters_of_runPc hlock hth hpc
  have hself := Ownership.settle_self hth slice
  have hsame : ∀ j ∈ slice.engine.transitionLock.waiters,
      (s.settle k th slice).pcAt j = s.pcAt j := by
    intro j hj
    have hmem : j ∈ s.engine.transitionLock.waiters := hwaiters ▸ List.mem_append_right _ hj
    obtain ⟨pc, hjpc, -⟩ := (hlock.mem_waiters j).mp hmem
    have := lt_of_pcAt hjpc
    have hjk : j ≠ k := fun hjk => hk (hjk ▸ hj)
    rw [pcAt_settle hth, if_neg hjk, if_neg (by omega)]
  refine ⟨slice.engine.transitionLock.waiters.filterMap fun j => (s.pcAt j).bind Pc.look, ?_, ?_⟩
  · rw [looks, hwaiters, List.filterMap_append]
    congr 1
    split_ifs with hw
    · cases hlook : th.pc.look <;> simp [pcAt_of_threads hth, hlook]
    · simp [Pc.look_eq_none hw]
  · rw [looks, settle_waiters, List.filterMap_append]
    congr 1
    · exact List.filterMap_congr fun j hj => by rw [hsame j hj]
    · split_ifs with hw
      · cases hlook : slice.pc.look <;> simp [hself, hlook]
      · simp [Pc.look_eq_none hw]

-- ════════════════════════════════════════════════════════════════════════
-- The guarded runs
-- ════════════════════════════════════════════════════════════════════════

/-- The last command was a pause, and every command has looked at the state. -/
def pausedLast (s : EngineSys) : Bool := s.lastCommand == some .pause && s.looks.isEmpty

/-- The condition on one step of a thread. -/
def crashSafeRun (s : EngineSys) (pc : Pc) (o : Outcome) : Bool :=
  match pc, o with
  | .lock (.startBegin _), _ => s.engine.state == .stopped && s.lastCommand == none
  | .lock (.pauseLook _ _), _ =>
    -- another command waits behind this pause, or it finds an engine that it can yield
    s.looks.length != 1 || s.engine.state != .dead &&
      !(s.engine.pendingResume && (s.engine.state == .running || s.engine.state == .unloading))
  | .generating _ _, .coreDead =>
    s.threads.all (fun th => !th.pc.exposed) &&
      (!s.pausedLast || s.threads.any fun th => th.pc.holds)
  | .destroy .recover .release, .cudaError => true
  | .destroy (.reload r) .release, .cudaError =>
    s.engine.state != .dead && (!s.pausedLast || 3 ≤ r.attempt)
  | .destroy _ .release, .cudaError => !s.pausedLast || s.engine.state != .dead
  | _, _ => true

/-- The steps of the runs described above. -/
def crashSafe (s : EngineSys) : Label → Bool
  | .spawn op | .call op =>
    match op with
    | .stop | .switchModel _ => false
    | _ => true
  | .run k o => (s.pcAt k).all fun pc => s.crashSafeRun pc o

/-- Nobody owns a STOPPED engine. -/
theorem Custody.not_owns_of_stopped (h : s.Custody) (hs : s.engine.state = .stopped) (k : Nat) :
    ¬ s.At Pc.owns k := by
  rintro ⟨pc, hpc, hown⟩
  obtain ⟨ρ, hρ⟩ := Option.isSome_iff_exists.mp hown
  obtain hallows | ⟨hdead, -⟩ := h.inCharge k pc hpc ρ hρ
  · cases ρ <;> simp [Role.allows, hs] at hallows
  · simp [hs] at hdead

theorem Custody.orderlyRun_of_crashSafeRun (hc : s.Custody) {pc : Pc}
    (h : s.crashSafeRun pc o) : s.orderlyRun pc o := by
  unfold orderlyRun
  split
  · simp only [crashSafeRun, Bool.and_eq_true, beq_iff_eq] at h
    have hnone := hc.not_owns_of_stopped h.1
    have hempty : s.engine.Empty := (hc.unowned hnone).empty (by simp [h.1]) (by simp [h.1])
    simp only [hempty.1, Option.isNone_none, Bool.true_and, List.all_eq_true]
    intro th hth
    obtain ⟨j, hj⟩ := List.mem_iff_getElem?.mp hth
    simpa [at_of_pcAt (pcAt_of_threads hj)] using hnone j
  · simp only [crashSafeRun, Bool.and_eq_true] at h
    exact h.1
  · simp only [crashSafeRun, Bool.and_eq_true] at h
    exact h.1
  · rfl

/-- The guarded runs are orderly, while custody holds. -/
theorem Custody.orderly_of_crashSafe (hc : s.Custody) (h : s.crashSafe l) : s.orderly l := by
  cases l with
  | spawn op | call op => cases op <;> simp_all [crashSafe, orderly]
  | run k o =>
    simp only [orderly, crashSafe, Option.all_eq_true] at h ⊢
    exact fun pc hpc => hc.orderlyRun_of_crashSafeRun (h pc hpc)

theorem custody_of_crashSafe (h : system.Reach (crashSafe · ·) s) : s.Custody :=
  h.invariant_of (fun _ => lockAgrees_of_reach) (fun _ => Custody.of_init)
    fun _ _ _ hlock hs hok hstep => hs.step hlock (hs.orderly_of_crashSafe hok) hstep

/-- Nobody switches the model. -/
def NoSwitch (s : EngineSys) : Prop := ∀ th ∈ s.threads, ∀ new, th.op ≠ .switchModel new

-- ════════════════════════════════════════════════════════════════════════
-- After the last pause has looked
-- ════════════════════════════════════════════════════════════════════════

/-- The engine is on its way to holding nothing. -/
inductive Settled (s : EngineSys) : Prop
  | off (h : s.engine.state = .paused ∨ s.engine.state = .stopped ∨ s.engine.state = .stopping)
  | deferred (h : s.engine.state.isLoading) (hp : s.engine.pendingPause.isSome)
  | undoing (h : s.engine.state.isLoading) (k : Nat) (hk : s.At Pc.endsLoad k)
  | stranded (h : s.engine.state.isLoading) (hnone : ∀ k, ¬ s.At Pc.owns k)
  | draining (h : s.engine.state = .running) (ha : s.engine.accepting = false)
      (hr : s.engine.pendingResume = false) (k : Nat) (hk : s.At Pc.drainsPause k)
  | unloading (h : s.engine.state = .unloading) (hr : s.engine.pendingResume = false)
  | reported (h : s.engine.state = .dead) (k : Nat)
      (hk : s.At (Pc.takesDown s.engine.pendingResume) k)

/-- A slice that changes nothing that `Settled` depends on. -/
structure Frames (e : VLLMEngine) (pc : Pc) (slice : Slice) : Prop where
  state : slice.engine.state = e.state
  pendingPause : slice.engine.pendingPause = e.pendingPause
  pendingResume : slice.engine.pendingResume = e.pendingResume
  accepting : e.state = .running → e.accepting = false → slice.engine.accepting = false
  endsLoad : pc.endsLoad → slice.pc.endsLoad
  owns : slice.pc.owns → pc.owns
  drainsPause : e.state = .running → pc.drainsPause → slice.pc.drainsPause
  takesDown : e.state = .dead → ∀ b, pc.takesDown b → slice.pc.takesDown b

/-- A witness that did not run, or that still is one. -/
theorem at_settle_of {P : Pc → Bool} (hP : P .created = false) {th : Thread} {slice : Slice}
    (hth : s.threads[k]? = some th) (hkeep : P th.pc → P slice.pc) {j : Nat} (hj : s.At P j) :
    (s.settle k th slice).At P j := by
  rw [at_settle hP hth]
  by_cases hjk : j = k
  · subst hjk
    exact .inl ⟨rfl, hkeep ((at_of_pcAt (pcAt_of_threads hth)).mp hj)⟩
  · exact .inr ⟨hjk, hj⟩

theorem Settled.of_frames (h : s.Settled) {th : Thread} {slice : Slice}
    (hth : s.threads[k]? = some th) (hf : Frames s.engine th.pc slice) :
    (s.settle k th slice).Settled := by
  cases h with
  | off h => exact .off (hf.state ▸ h)
  | deferred h hp => exact .deferred (hf.state ▸ h) (hf.pendingPause ▸ hp)
  | undoing h j hj => exact .undoing (hf.state ▸ h) j (at_settle_of rfl hth hf.endsLoad hj)
  | stranded h hnone =>
    refine .stranded (hf.state ▸ h) fun j hj => ?_
    obtain ⟨-, hown⟩ | ⟨-, hj⟩ := (at_settle rfl hth).mp hj
    · exact hnone k ((at_of_pcAt (pcAt_of_threads hth)).mpr (hf.owns hown))
    · exact hnone j hj
  | draining h ha hr j hj =>
    exact .draining (hf.state ▸ h) (hf.accepting h ha) (hf.pendingResume ▸ hr) j
      (at_settle_of rfl hth (hf.drainsPause h) hj)
  | unloading h hr => exact .unloading (hf.state ▸ h) (hf.pendingResume ▸ hr)
  | reported h j hj =>
    have hflag : (s.settle k th slice).engine.pendingResume = s.engine.pendingResume :=
      hf.pendingResume
    exact .reported (hf.state ▸ h) j (hflag ▸ at_settle_of rfl hth (hf.takesDown h _) hj)

/-- Under a report somebody is in a teardown that no load follows. -/
theorem Settled.exists_takesDown (h : s.Settled) (hd : s.engine.state = .dead) :
    ∃ k, s.At (Pc.takesDown s.engine.pendingResume) k := by
  cases h with
  | off h => simp [hd] at h
  | deferred h _ | undoing h _ _ | stranded h _ => simp [hd, EngineState.isLoading] at h
  | draining h _ _ _ _ | unloading h _ => simp [hd] at h
  | reported _ k hk => exact ⟨k, hk⟩

/-- On a RUNNING engine somebody drains, and no resume is recorded. -/
theorem Settled.exists_drainsPause (h : s.Settled) (hr : s.engine.state = .running) :
    s.engine.pendingResume = false ∧ ∃ k, s.At Pc.drainsPause k := by
  cases h with
  | off h => simp [hr] at h
  | deferred h _ | undoing h _ _ | stranded h _ => simp [hr, EngineState.isLoading] at h
  | draining _ _ hresume k hk => exact ⟨hresume, k, hk⟩
  | unloading h _ | reported h _ _ => simp [hr] at h

/-- While nobody holds the lock, no report is left behind. -/
theorem Settled.state_ne_dead (h : s.Settled) (hfree : ∀ j, ¬ s.At Pc.holds j) :
    s.engine.state ≠ .dead := by
  intro hd
  obtain ⟨j, pc, hpc, htakes⟩ := h.exists_takesDown hd
  refine hfree j ⟨pc, hpc, ?_⟩
  cases pc <;> first | rfl | cases htakes

/-- A load that ends finds the pause that was left to it. -/
theorem Settled.pendingPause_of_loader (h : s.Settled) (hc : s.Custody)
    (hl : s.engine.state.isLoading) {pc : Pc} (hpc : s.pcAt k = some pc) (hown : pc.owns)
    (hends : pc.endsLoad = false) : s.engine.pendingPause.isSome := by
  have hk : s.At Pc.owns k := ⟨pc, hpc, hown⟩
  cases h with
  | off h => rcases h with h | h | h <;> simp [h, EngineState.isLoading] at hl
  | deferred h hp => exact hp
  | undoing h j hj =>
    obtain ⟨pc', hpc', hends'⟩ := hj
    obtain rfl := hc.unique j k ⟨pc', hpc', Pc.owns_of_endsLoad hends'⟩ hk
    cases hpc.symm.trans hpc'
    cases hends.symm.trans hends'
  | stranded _ hnone => exact absurd hk (hnone k)
  | draining h _ _ _ _ | unloading h _ | reported h _ _ => simp [h, EngineState.isLoading] at hl

theorem Settled.pendingResume_of_unloading (h : s.Settled) (hu : s.engine.state = .unloading) :
    s.engine.pendingResume = false := by
  cases h with
  | off h => simp [hu] at h
  | deferred h _ | undoing h _ _ | stranded h _ => simp [hu, EngineState.isLoading] at h
  | draining h _ _ _ _ | reported h _ _ => simp [hu] at h
  | unloading _ hr => exact hr

/-- A teardown under a report is one that no load follows. -/
theorem Settled.takesDown_of_dead (h : s.Settled) (hc : s.Custody) (hd : s.engine.state = .dead)
    {pc : Pc} (hpc : s.pcAt k = some pc) (hown : pc.owns) :
    pc.takesDown s.engine.pendingResume := by
  obtain ⟨j, pc', hpc', htakes⟩ := h.exists_takesDown hd
  obtain rfl := hc.unique j k ⟨pc', hpc', Pc.owns_of_takesDown htakes⟩ ⟨pc, hpc, hown⟩
  cases hpc.symm.trans hpc'
  exact htakes

/-- Whoever holds the lock is in such a teardown. -/
theorem Settled.takesDown_of_holds (h : s.Settled) (hc : s.Custody) {t : Teardown} {phase : Phase}
    (hpc : s.pcAt k = some (.destroy t phase)) :
    (Pc.destroy t phase).takesDown s.engine.pendingResume := by
  obtain hallows | ⟨hd, -⟩ := hc.inCharge k _ hpc t.role rfl
  · cases t with
    | start | reload r => rfl
    | pause c =>
      simp [Pc.takesDown, h.pendingResume_of_unloading (VLLMEngine.unloader_state hallows)]
    | recover => exact h.takesDown_of_dead hc (VLLMEngine.recoverer_state hallows) hpc rfl
    | stop => simp [Teardown.role, Role.allows] at hallows
  · exact h.takesDown_of_dead hc hd hpc rfl

theorem isLoading_of_loader {state : EngineState} (h : Role.loader.allows state) :
    state.isLoading := by
  cases state <;> first | rfl | cases h

/-- A running `_do_reload` or `start`: undo the load. -/
theorem settled_beginDestroy {th : Thread} {e : VLLMEngine} {teardown : Teardown}
    (hth : s.threads[k]? = some th) (hl : e.state.isLoading)
    (hends : ∀ phase, (Pc.destroy teardown phase).endsLoad) :
    (s.settle k th (e.beginDestroy teardown)).Settled :=
  .undoing hl k ⟨_, Ownership.settle_self hth _, hends _⟩

variable {th : Thread} {slice : Slice}

/-- The conditions under which a step keeps the engine on its way: a report comes during a
teardown, and a teardown that raises leaves neither a report nor another attempt behind. -/
structure Harmless (s : EngineSys) (pc : Pc) (o : Outcome) : Prop where
  report : ∀ weights hasOutput, pc = .generating weights hasOutput → o = .coreDead →
    ∃ j, s.At Pc.holds j
  raise : ∀ t, pc = .destroy t .release → o = .cudaError → t ≠ .recover →
    s.engine.state ≠ .dead ∧ ∀ r, t = .reload r → 3 ≤ r.attempt

theorem harmless_of_crashSafeRun {pc : Pc} (hlast : s.pausedLast) (h : s.crashSafeRun pc o) :
    s.Harmless pc o where
  report := by
    rintro weights hasOutput rfl rfl
    simp only [crashSafeRun, hlast, Bool.not_true, Bool.false_or, Bool.and_eq_true,
      List.any_eq_true] at h
    obtain ⟨th, hth, hholds⟩ := h.2
    obtain ⟨j, hj⟩ := List.mem_iff_getElem?.mp hth
    exact ⟨j, th.pc, pcAt_of_threads hj, hholds⟩
  raise := by
    rintro t rfl rfl ht
    cases t with
    | recover => exact absurd rfl ht
    | reload r =>
      simp only [crashSafeRun, hlast, Bool.not_true, Bool.false_or, Bool.and_eq_true, bne_iff_ne,
        decide_eq_true_eq] at h
      refine ⟨h.1, ?_⟩
      rintro r' ⟨⟩
      exact h.2
    | _ =>
      refine ⟨by simpa [crashSafeRun, hlast] using h, ?_⟩
      rintro r ⟨⟩

/-- The blocks other than the looks. -/
theorem Settled.critical (h : s.Settled) (hc : s.Custody) (hlock : s.LockAgrees)
    (hth : s.threads[k]? = some th) {block : Critical} (hblock : th.pc = .lock block)
    (hlook : th.pc.look = none) (hstart : ∀ modelPath, th.pc ≠ .lock (.startBegin modelPath))
    (hpc : s.engine.runPc k th.op (.lock block) o = some slice) :
    (s.settle k th slice).Settled := by
  have hat := pcAt_of_threads hth
  have hfree := Ownership.not_holds_of_waits hlock (hblock ▸ hpc) (by rw [hblock]; rfl)
  have hrole (ρ : Role) (hρ : block.role = some ρ) : ρ.allows s.engine.state :=
    (hc.inCharge k th.pc hat ρ (hblock ▸ hρ)).resolve_right fun hd => by simp [hblock, Pc.holds] at hd
  have hloading (hρ : block.role = some .loader) : s.engine.state.isLoading :=
    isLoading_of_loader (hrole _ hρ)
  obtain ⟨l, -, rfl⟩ := VLLMEngine.runPc_block hpc
  rw [hblock] at hlook hat
  cases block with
  | startBegin modelPath => exact absurd hblock (hstart modelPath)
  | startFailed => exact .off (.inr (.inl rfl))
  | startFinish =>
    have hp := h.pendingPause_of_loader hc (hloading rfl) hat rfl rfl
    simp only [VLLMEngine.critical, hp, if_true]
    exact settled_beginDestroy hth (hloading rfl) fun _ => rfl
  | pauseLook u c => cases hlook
  | resumeLook c => cases hlook
  | pauseTakeover c =>
    simp only [VLLMEngine.critical, VLLMEngine.pauseReturn_eq]
    split_ifs with hr
    · refine h.of_frames hth (hblock ▸ ⟨rfl, rfl, rfl, fun hs => absurd hs hr, Bool.noConfusion, ?_,
        fun hs => absurd hs hr, fun _ _ => Bool.noConfusion⟩)
      simp [Pc.owns]
    · exact .unloading rfl (h.exists_drainsPause (not_not.mp hr)).1
  | pauseDestroy c =>
    exact h.of_frames hth (hblock ▸ ⟨rfl, rfl, rfl, fun _ ha => ha, Bool.noConfusion, fun _ => rfl,
      fun _ => Bool.noConfusion, fun _ _ => Bool.noConfusion⟩)
  | reloadFinish r =>
    have hp := h.pendingPause_of_loader hc (hloading rfl) hat rfl rfl
    simp only [VLLMEngine.critical, hp, if_true]
    exact settled_beginDestroy hth (hloading rfl) fun _ => rfl
  | reloadGiveUp r => exact .off (.inl rfl)
  | recoverBegin =>
    simp only [VLLMEngine.critical, h.state_ne_dead hfree, ne_eq, not_false_eq_true, if_true]
    exact h.of_frames hth (hblock ▸ ⟨rfl, rfl, rfl, fun _ ha => ha, Bool.noConfusion, id,
      fun _ => Bool.noConfusion, fun _ _ => Bool.noConfusion⟩)
  | stopBegin => exact absurd (hrole _ rfl) (by simp [Role.allows])

/-- Teardowns. -/
theorem Settled.destroy (h : s.Settled) (hc : s.Custody) (hth : s.threads[k]? = some th)
    {teardown : Teardown} {phase : Phase} (hp : th.pc = .destroy teardown phase)
    (hok : s.Harmless th.pc o) (hpc : s.engine.destroyStep teardown phase o = some slice) :
    (s.settle k th slice).Settled := by
  have hat := hp ▸ pcAt_of_threads hth
  have htakes := h.takesDown_of_holds hc hat
  cases phase with
  | abort | exitWait | killWait =>
    cases o <;> cases hpc
    refine h.of_frames hth (hp ▸ ⟨rfl, rfl, rfl, fun _ ha => ha, ?_, fun _ => rfl,
      fun _ => Bool.noConfusion, fun _ b => ?_⟩)
    · cases teardown <;> exact id
    · cases teardown <;> exact id
  | release =>
    cases o <;> cases hpc
    · cases teardown with
      | start => exact .off (.inl rfl)
      | pause c =>
        have hr : s.engine.pendingResume = false := by simpa [Pc.takesDown] using htakes
        simp only [VLLMEngine.destroyed, hr, Bool.false_eq_true, if_false, VLLMEngine.pauseReturn_eq]
        exact .off (.inl rfl)
      | reload r =>
        simp only [VLLMEngine.destroyed, VLLMEngine.reloadReturn_eq]
        exact .off (.inl rfl)
      | recover => cases htakes
      | stop => cases htakes
    · obtain ⟨hd, hlastAttempt⟩ := hok.raise teardown hp rfl (by rintro rfl; cases htakes)
      have hallows := (hc.inCharge k _ hat teardown.role rfl).resolve_right fun h => hd h.1
      cases teardown with
      | start =>
        -- the load is undone, but STARTING stays
        refine .stranded (isLoading_of_loader hallows) fun j hj => ?_
        obtain ⟨-, hown⟩ | ⟨hjk, hj⟩ := (at_settle rfl hth).mp hj
        · cases hown
        · exact hjk (hc.unique j k hj ⟨_, hat, rfl⟩)
      | pause c =>
        have hs := VLLMEngine.unloader_state hallows
        simp only [VLLMEngine.destroyRaised, VLLMEngine.pauseRaise_eq]
        exact .unloading hs (h.pendingResume_of_unloading hs)
      | reload r =>
        have hr : ¬ r.attempt < 3 := Nat.not_lt.mpr (hlastAttempt r rfl)
        simp only [VLLMEngine.destroyRaised, VLLMEngine.reloadFailed, hr, if_false]
        exact .undoing (isLoading_of_loader hallows) k ⟨_, Ownership.settle_self hth _, rfl⟩
      | recover => cases htakes
      | stop => cases htakes

/-- First stretches change nothing, without `switch_model` and `stop`. -/
theorem frames_enter {e : VLLMEngine} {op : Op} (hop : ∀ new, op ≠ .switchModel new)
    (hstop : op ≠ .stop) : Frames e .created (e.enter op) := by
  cases op with
  | switchModel new => exact absurd rfl (hop new)
  | stop => exact absurd rfl hstop
  | generate requested =>
    simp only [VLLMEngine.enter, VLLMEngine.beginGenerate]
    split <;> exact ⟨rfl, rfl, rfl, fun _ ha => ha, id, id, fun _ => id, fun _ _ => id⟩
  | _ =>
    exact ⟨rfl, rfl, rfl, fun _ ha => ha, Bool.noConfusion, id, fun _ => Bool.noConfusion,
      fun _ _ => Bool.noConfusion⟩

/-- Requests change nothing, while no core is reported dead. -/
theorem frames_generate {e : VLLMEngine} {weights : ModelPath} {hasOutput : Bool}
    (ho : o ≠ .coreDead) (hpc : e.generateStep weights hasOutput o = some slice) :
    Frames e (.generating weights hasOutput) slice := by
  have hframes {e' : VLLMEngine} {pc' : Pc} (he : e' = e ∨ e' = e.requestDone)
      (hown : pc'.owns = false) : Frames e (.generating weights hasOutput) ⟨e', pc', false⟩ := by
    have howns (h : pc'.owns) : (Pc.generating weights hasOutput).owns := by cases hown.symm.trans h
    rcases he with rfl | rfl <;>
      exact ⟨rfl, rfl, rfl, fun _ ha => ha, Bool.noConfusion, howns, fun _ => Bool.noConfusion,
        fun _ _ => Bool.noConfusion⟩
  cases o with
  | output =>
    simp only [VLLMEngine.generateStep] at hpc
    split_ifs at hpc <;> cases hpc
    · exact hframes (.inl rfl) rfl
    · exact hframes (.inl rfl) rfl
    · exact hframes (.inr rfl) rfl
  | ended | failed =>
    cases hpc
    exact hframes (.inr rfl) rfl
  | stalled =>
    cases hpc
    exact hframes (.inl rfl) rfl
  | coreDead => exact absurd rfl ho
  | _ => cases hpc

/-- Loads change nothing before they take the lock. -/
theorem frames_of_loader {e e' : VLLMEngine} {pc pc' : Pc} (hends : pc.endsLoad = false)
    (hdrain : pc.drainsPause = false) (htakes : ∀ b, pc.takesDown b = false)
    (hown : pc'.owns → pc.owns) (hstate : e'.state = e.state)
    (hpp : e'.pendingPause = e.pendingPause) (hpr : e'.pendingResume = e.pendingResume)
    (ha : e'.accepting = e.accepting) : Frames e pc ⟨e', pc', false⟩ :=
  ⟨hstate, hpp, hpr, fun _ h => ha.trans h, fun h => absurd (hends.symm.trans h) Bool.false_ne_true,
    hown, fun _ h => absurd (hdrain.symm.trans h) Bool.false_ne_true,
    fun _ b h => absurd ((htakes b).symm.trans h) Bool.false_ne_true⟩

/-- A report of a dead core during a teardown: the teardown overwrites it. -/
theorem Settled.report (h : s.Settled) (hc : s.Custody) (hth : s.threads[k]? = some th)
    {weights : ModelPath} {hasOutput : Bool} (hp : th.pc = .generating weights hasOutput)
    (hholds : ∃ j, s.At Pc.holds j) :
    (s.settle k th ⟨s.engine.markDead.requestDone, .finished .raised, !s.engine.recovering⟩).Settled := by
  obtain ⟨j, pc, hpc, hholds⟩ := hholds
  obtain ⟨t, phase, rfl⟩ : ∃ t phase, pc = .destroy t phase := by
    cases pc <;> first | exact ⟨_, _, rfl⟩ | cases hholds
  have htakes := h.takesDown_of_holds hc hpc
  refine .reported rfl j (at_settle_of rfl hth (fun hgen => ?_) ⟨_, hpc, htakes⟩)
  rw [hp] at hgen
  cases hgen

/-- **No other thread interferes**: once the last pause has looked at the state, every
step keeps the engine on its way. -/
theorem Settled.settle (h : s.Settled) (hc : s.Custody) (hlock : s.LockAgrees)
    (hth : s.threads[k]? = some th) (hop : ∀ new, th.op ≠ .switchModel new)
    (hlook : th.pc.look = none) (hok : s.Harmless th.pc o)
    (hstart : ∀ modelPath, th.pc ≠ .lock (.startBegin modelPath))
    (hpc : s.engine.runPc k th.op th.pc o = some slice) : (s.settle k th slice).Settled := by
  cases hp : th.pc with
  | created =>
    rw [hp] at hpc
    cases o <;> cases hpc
    exact h.of_frames hth (hp ▸ frames_enter hop (hc.ops th (List.mem_of_getElem? hth)))
  | lock block => exact h.critical hc hlock hth hp hlook hstart (hp ▸ hpc)
  | destroy teardown phase =>
    rw [hp] at hpc
    exact h.destroy hc hth hp hok hpc
  | drain d =>
    rw [hp] at hpc
    obtain rfl : slice = s.engine.drained d := by cases o <;> simp_all [VLLMEngine.runPc]
    cases d with
    | pause c =>
      exact h.of_frames hth (hp ▸ ⟨rfl, rfl, rfl, fun _ ha => ha, Bool.noConfusion,
        Bool.noConfusion, fun _ _ => rfl, fun _ _ => Bool.noConfusion⟩)
    | switchModel new =>
      exact h.of_frames hth (hp ▸ frames_of_loader rfl rfl (fun _ => rfl) Bool.noConfusion rfl rfl
        rfl rfl)
  | generating weights hasOutput =>
    rw [hp] at hpc
    by_cases ho : o = .coreDead
    · subst ho
      cases hpc
      exact h.report hc hth hp (hok.report weights hasOutput hp rfl)
    · exact h.of_frames hth (hp ▸ frames_generate ho hpc)
  | load r =>
    rw [hp] at hpc
    cases o <;> cases hpc
    · exact h.of_frames hth (hp ▸ frames_of_loader rfl rfl (fun _ => rfl) id rfl rfl rfl rfl)
    · simp only [VLLMEngine.reloadFailed]
      split_ifs
      · exact h.of_frames hth (hp ▸ frames_of_loader rfl rfl (fun _ => rfl) id rfl rfl rfl rfl)
      · exact h.of_frames hth (hp ▸ frames_of_loader rfl rfl (fun _ => rfl) id rfl rfl rfl rfl)
  | _ =>
    rw [hp] at hpc
    cases o <;> cases hpc <;>
      exact h.of_frames hth (hp ▸ frames_of_loader rfl rfl (fun _ => rfl) id rfl rfl rfl rfl)

/-- The last pause looks at the state. -/
theorem settled_of_pauseLook (hth : s.threads[k]? = some th) (hlook : th.pc.look = some .pause)
    (hdead : s.engine.state ≠ .dead)
    (hresume : s.engine.state = .running ∨ s.engine.state = .unloading →
      s.engine.pendingResume = false)
    (hpc : s.engine.runPc k th.op th.pc o = some slice) : (s.settle k th slice).Settled := by
  obtain ⟨u, c, hp⟩ : ∃ u c, th.pc = .lock (.pauseLook u c) := by
    cases hp : th.pc with
    | lock block => cases block <;> simp_all [Pc.look]
    | _ => simp_all [Pc.look]
  rw [hp] at hpc
  obtain ⟨l, -, rfl⟩ := VLLMEngine.runPc_block hpc
  simp only [VLLMEngine.critical, VLLMEngine.pauseReturn_eq]
  split_ifs with hl hr hu
  · refine .deferred ?_ rfl
    rcases hl with hl | hl <;> simp [EngineSys.settle, VLLMEngine.release, hl, EngineState.isLoading]
  · have hcases : s.engine.state = .paused ∨ s.engine.state = .stopped ∨
        s.engine.state = .stopping ∨ s.engine.state = .unloading := by
      cases hs : s.engine.state <;> simp_all
    rcases hcases with hs | hs | hs | hs
    · exact .off (.inl hs)
    · exact .off (.inr (.inl hs))
    · exact .off (.inr (.inr hs))
    · exact .unloading hs (hresume (.inr hs))
  · have hs : s.engine.state = .running := not_not.mp hr
    exact .draining hs rfl (hresume (.inl hs)) k ⟨_, Ownership.settle_self hth _, rfl⟩
  · exact .unloading rfl (hresume (.inl (not_not.mp hr)))

-- ════════════════════════════════════════════════════════════════════════
-- New commands
-- ════════════════════════════════════════════════════════════════════════

theorem enter_look {e : VLLMEngine} {op : Op} (hop : ∀ new, op ≠ .switchModel new) :
    (e.enter op).pc.look = op.command := by
  cases op with
  | switchModel new => exact absurd rfl (hop new)
  | generate requested =>
    simp only [VLLMEngine.enter, VLLMEngine.beginGenerate]
    split <;> rfl
  | _ => rfl

theorem caller_eq_external {c : Caller} {op : Op} (hop : ∀ new, op ≠ .switchModel new)
    (h : c.inPause op) : c = .external := by
  cases c with
  | external => rfl
  | switchModel new => cases op <;> simp_all [Caller.inPause]

theorem reloadReturn_look {e : VLLMEngine} {c : ReloadCaller} {op : Op}
    (hop : ∀ new, op ≠ .switchModel new) (h : c.belongs op) : (e.reloadReturn c).pc.look = none := by
  cases c with
  | pause c =>
    obtain rfl := caller_eq_external hop h
    rfl
  | resume c => cases c <;> rfl
  | recover => rfl

theorem critical_look {e : VLLMEngine} {block : Critical} {op : Op}
    (hop : ∀ new, op ≠ .switchModel new) (hb : block.belongs op) :
    (e.critical block).pc.look = none := by
  cases block with
  | startFinish | recoverBegin =>
    simp only [VLLMEngine.critical]
    split_ifs <;> rfl
  | pauseLook u c =>
    obtain rfl := caller_eq_external hop hb
    simp only [VLLMEngine.critical]
    split_ifs <;> rfl
  | pauseTakeover c =>
    obtain rfl := caller_eq_external hop hb
    simp only [VLLMEngine.critical]
    split_ifs <;> rfl
  | resumeLook c =>
    simp only [VLLMEngine.critical, VLLMEngine.resumeReturn_eq]
    split_ifs <;> rfl
  | reloadFinish r =>
    simp only [VLLMEngine.critical]
    split_ifs
    · rfl
    · exact reloadReturn_look hop hb
  | _ => rfl

/-- A command looks at the state once, on its own. -/
theorem runPc_look {e : VLLMEngine} {pc : Pc} {op : Op} (hop : ∀ new, op ≠ .switchModel new)
    (hb : pc.belongs op) (hc : pc ≠ .created) (hpc : e.runPc k op pc o = some slice) :
    slice.pc.look = none := by
  cases pc with
  | created => exact absurd rfl hc
  | lock block =>
    obtain ⟨l, -, rfl⟩ := VLLMEngine.runPc_block hpc
    exact critical_look hop hb
  | destroy teardown phase =>
    cases phase <;> cases o <;> cases hpc <;> try rfl
    · cases teardown with
      | pause c =>
        obtain rfl := caller_eq_external hop hb
        simp only [VLLMEngine.destroyed]
        split_ifs <;> rfl
      | reload r => exact reloadReturn_look hop hb
      | _ => rfl
    · cases teardown with
      | pause c => cases c <;> rfl
      | reload r =>
        simp only [VLLMEngine.destroyRaised, VLLMEngine.reloadFailed]
        split_ifs <;> rfl
      | _ => rfl
  | drain d =>
    obtain rfl := VLLMEngine.runPc_drain hpc
    cases d with
    | pause c => rfl
    | switchModel new => exact absurd (by simpa [Pc.belongs, Drain.belongs] using hb) (hop new)
  | load r =>
    cases o <;> cases hpc
    · rfl
    · simp only [VLLMEngine.reloadFailed]
      split_ifs <;> rfl
  | generating weights hasOutput =>
    cases o with
    | output =>
      simp only [VLLMEngine.runPc, VLLMEngine.generateStep] at hpc
      split_ifs at hpc <;> cases hpc <;> rfl
    | _ => cases hpc <;> rfl
  | _ => cases o <;> cases hpc <;> rfl

/-- The invariant of the guarded runs. -/
structure Yields (s : EngineSys) : Prop where
  noSwitch : s.NoSwitch
  last : ∀ c, s.looks.getLast? = some c → s.lastCommand = some c
  settled : s.lastCommand = some .pause → s.looks = [] → s.Settled

theorem NoSwitch.settle (h : s.NoSwitch) (hth : s.threads[k]? = some th) :
    (s.settle k th slice).NoSwitch := by
  intro x hx new
  rcases mem_settle hx with hx | ⟨hop, -⟩ | rfl
  · exact h x hx new
  · rw [hop]
    exact h th (List.mem_of_getElem? hth) new
  · exact Op.noConfusion

/-- No `start` begins after a mining command. -/
theorem not_startBegin {pc : Pc} (hok : s.crashSafeRun pc o) (hpause : s.lastCommand = some .pause)
    (modelPath : ModelPath) : pc ≠ .lock (.startBegin modelPath) := by
  rintro rfl
  simp [crashSafeRun, hpause] at hok

theorem pausedLast_iff : s.pausedLast ↔ s.lastCommand = some .pause ∧ s.looks = [] := by
  simp [pausedLast]

/-- What the last pause finds. -/
theorem yields_of_pauseLook {pc : Pc} (hlook : pc.look = some .pause) (hlast : s.looks = [.pause])
    (hok : s.crashSafeRun pc o) :
    s.engine.state ≠ .dead ∧ (s.engine.state = .running ∨ s.engine.state = .unloading →
      s.engine.pendingResume = false) := by
  obtain ⟨u, c, rfl⟩ : ∃ u c, pc = .lock (.pauseLook u c) := by
    cases pc with
    | lock block => cases block <;> simp_all [Pc.look]
    | _ => simp_all [Pc.look]
  simp only [crashSafeRun, hlast, List.length_singleton, bne_self_eq_false, Bool.false_or,
    Bool.and_eq_true, bne_iff_ne, ne_eq, Bool.not_eq_true'] at hok
  refine ⟨hok.1, fun hs => ?_⟩
  have hflag := hok.2
  rcases hs with hs | hs <;> simpa [hs] using hflag

/-- A command begins, and joins the end of the queue. -/
theorem Yields.enter (h : s.Yields) (hc : s.Custody) (hlock : s.LockAgrees)
    (hth : s.threads[k]? = some th) (hcreated : th.pc = .created) (hok : s.crashSafeRun th.pc o)
    (hpc : s.engine.runPc k th.op th.pc o = some slice) : (s.settle k th slice).Yields := by
  have hop := h.noSwitch th (List.mem_of_getElem? hth)
  obtain ⟨rest, hlooks, hlooks'⟩ := looks_settle hlock hth hpc
  have hlook : slice.pc.look = th.op.command := by
    rw [hcreated] at hpc
    cases o <;> cases hpc
    exact enter_look hop
  have hlook' : th.pc.look = none := by rw [hcreated]; rfl
  have hcmd : (s.settle k th slice).lastCommand = (th.op.command <|> s.lastCommand) := by
    simp [EngineSys.settle, hcreated]
  rw [hlook', Option.toList_none, List.nil_append] at hlooks
  rw [hlook] at hlooks'
  cases hcommand : th.op.command with
  | none =>
    rw [hcommand] at hcmd hlooks'
    have hsame : (s.settle k th slice).looks = s.looks := by simpa [hlooks] using hlooks'
    refine ⟨h.noSwitch.settle hth, ?_, ?_⟩
    · rw [hsame, hcmd]
      exact h.last
    · rw [hsame, hcmd]
      intro hpause hnone
      exact (h.settled hpause hnone).settle hc hlock hth hop hlook'
        (harmless_of_crashSafeRun (pausedLast_iff.mpr ⟨hpause, hnone⟩) hok)
        (not_startBegin hok hpause) hpc
  | some c =>
    rw [hcommand] at hcmd hlooks'
    refine ⟨h.noSwitch.settle hth, fun c' hc' => ?_, fun _ hnone => ?_⟩
    · rw [hlooks'] at hc'
      rw [hcmd]
      simpa using hc'
    · rw [hlooks'] at hnone
      simp at hnone

/-- A thread goes on; a command that looks leaves the head of the queue. -/
theorem Yields.goOn (h : s.Yields) (hc : s.Custody) (hlock : s.LockAgrees) (hb : s.Belongs)
    (hth : s.threads[k]? = some th) (hcreated : th.pc ≠ .created) (hok : s.crashSafeRun th.pc o)
    (hpc : s.engine.runPc k th.op th.pc o = some slice) : (s.settle k th slice).Yields := by
  have hmem := List.mem_of_getElem? hth
  have hop := h.noSwitch th hmem
  obtain ⟨rest, hlooks, hlooks'⟩ := looks_settle hlock hth hpc
  have hlook : slice.pc.look = none := runPc_look hop (hb th hmem) hcreated hpc
  have hcmd : (s.settle k th slice).lastCommand = s.lastCommand := by
    simp [EngineSys.settle, hcreated]
  rw [hlook, Option.toList_none, List.append_nil] at hlooks'
  refine ⟨h.noSwitch.settle hth, fun c hlast => ?_, fun hpause hnone => ?_⟩
  · rw [hlooks'] at hlast
    rw [hcmd]
    refine h.last c ?_
    rw [hlooks, List.getLast?_append, hlast]
    rfl
  · rw [hlooks'] at hnone
    subst hnone
    rw [hcmd] at hpause
    rw [List.append_nil] at hlooks
    cases hold : th.pc.look with
    | none =>
      rw [hold] at hlooks
      exact (h.settled hpause hlooks).settle hc hlock hth hop hold
        (harmless_of_crashSafeRun (pausedLast_iff.mpr ⟨hpause, hlooks⟩) hok)
        (not_startBegin hok hpause) hpc
    | some c =>
      -- the last pause looks
      have hlast := h.last c (by simp [hlooks, hold])
      obtain rfl : c = .pause := Option.some.inj (hlast.symm.trans hpause)
      obtain ⟨hdead, hresume⟩ := yields_of_pauseLook hold (by rw [hlooks, hold]; rfl) hok
      exact settled_of_pauseLook hth hold hdead hresume hpc

theorem Yields.runThread (h : s.Yields) (hc : s.Custody) (hlock : s.LockAgrees)
    (hb : s.Belongs) (hok : ∀ pc, s.pcAt k = some pc → s.crashSafeRun pc o)
    (hrun : s.runThread k o = some t) : t.Yields := by
  obtain ⟨th, slice, hth, hpc, rfl⟩ := runThread_eq_some.mp hrun
  have hsafe := hok _ (pcAt_of_threads hth)
  by_cases hcreated : th.pc = .created
  · exact h.enter hc hlock hth hcreated hsafe hpc
  · exact h.goOn hc hlock hb hth hcreated hsafe hpc

theorem Settled.spawn (h : s.Settled) {op : Op} : (s.spawn op).Settled := by
  cases h with
  | off h => exact .off h
  | deferred h hp => exact .deferred h hp
  | undoing h k hk => exact .undoing h k ((at_spawn rfl).mpr hk)
  | stranded h hnone => exact .stranded h fun k hk => hnone k ((at_spawn rfl).mp hk)
  | draining h ha hr k hk => exact .draining h ha hr k ((at_spawn rfl).mpr hk)
  | unloading h hr => exact .unloading h hr
  | reported h k hk => exact .reported h k ((at_spawn rfl).mpr hk)

theorem Yields.spawn (h : s.Yields) (hlock : s.LockAgrees) {op : Op}
    (hop : ∀ new, op ≠ .switchModel new) : (s.spawn op).Yields := by
  refine ⟨fun x hx new => ?_, ?_, ?_⟩
  · rcases List.mem_append.mp hx with hx | hx
    · exact h.noSwitch x hx new
    · obtain rfl := List.mem_singleton.mp hx
      exact hop new
  · rw [looks_spawn hlock]
    exact h.last
  · rw [looks_spawn hlock]
    exact fun hpause hnone => (h.settled hpause hnone).spawn

/-- **Step lemma**. -/
theorem Yields.step (h : s.Yields) (hc : s.Custody) (hlock : s.LockAgrees) (hb : s.Belongs)
    (hok : s.crashSafe l) (hstep : s.step l = some t) : t.Yields := by
  have hop {op : Op} (hop : s.crashSafe (.call op)) : (∀ new, op ≠ .switchModel new) ∧ op ≠ .stop := by
    cases op <;> simp_all [crashSafe]
  obtain ⟨op, -, rfl, rfl⟩ | ⟨op, -, rfl, hrun⟩ | ⟨k, o, rfl, hrun⟩ := step_cases hstep
  · exact h.spawn hlock (hop hok).1
  · refine (h.spawn hlock (hop hok).1).runThread (hc.spawn (hop hok).2) hlock.spawn hb.spawn
      (fun pc hpc => ?_) hrun
    rw [pcAt_spawn, if_pos rfl] at hpc
    cases hpc
    rfl
  · refine h.runThread hc hlock hb (fun pc hpc => ?_) hrun
    simpa [crashSafe, hpc] using hok

/-- **Run lemma**. -/
theorem yields_of_reach (h : system.Reach (crashSafe · ·) s) : s.Yields := by
  refine h.invariant_of (J := fun s => s.Custody ∧ s.LockAgrees ∧ s.Belongs) (fun s hs => ?_)
    (fun s hs => ?_) fun s l t hJ hI hok hstep => hI.step hJ.1 hJ.2.1 hJ.2.2 hok hstep
  · exact ⟨custody_of_crashSafe hs, lockAgrees_of_reach hs, belongs_of_reach hs⟩
  · rcases hs with rfl | ⟨modelPath, rfl⟩
    all_goals
      refine ⟨?_, ?_, ?_⟩
      · simp [NoSwitch]
      · simp [looks]
      · simp

/-- An engine that comes to rest on its way to holding nothing holds nothing. -/
theorem Settled.empty_of_quiet (h : s.Settled) (hc : s.Custody) (hquiet : s.Quiet) :
    s.engine.state ≠ .running ∧ s.engine.core = none := by
  have hr : s.engine.state ≠ .running := by
    intro hr
    obtain ⟨-, k, hk⟩ := h.exists_drainsPause hr
    exact hquiet.not_at (fun _ => Pc.not_drainsPause_of_serves) (fun _ => rfl) k hk
  have hd : s.engine.state ≠ .dead := by
    intro hd
    obtain ⟨k, hk⟩ := h.exists_takesDown hd
    exact hquiet.not_at (fun _ h => Pc.not_takesDown_of_serves h _) (fun _ => rfl) k hk
  have hunowned : s.engine.GpuFor none := hc.unowned hquiet.not_owns
  exact ⟨hr, (hunowned.empty hr hd).1⟩

/-- **Core crashes do not undo a yield**: in the guarded runs, an engine at rest whose last
mining command was a pause is not RUNNING and holds no core. -/
theorem notRunning_of_quiet (h : system.Reach (crashSafe · ·) s) (hquiet : s.Quiet)
    (hpause : s.lastCommand = some .pause) :
    s.engine.state ≠ .running ∧ s.engine.core = none := by
  have hwaiters : s.engine.transitionLock.waiters = [] := by
    refine List.eq_nil_iff_forall_not_mem.mpr fun k hk => ?_
    exact hquiet.not_at (P := Pc.waits) (fun _ => Pc.not_waits_of_serves) (fun _ => rfl) k
      (((lockAgrees_of_reach h).mem_waiters k).mp hk)
  have hsettled : s.Settled := by
    refine (yields_of_reach h).settled hpause ?_
    rw [looks, hwaiters, List.filterMap_nil]
  exact hsettled.empty_of_quiet (custody_of_crashSafe h) hquiet

/-- Two requests report one dead core, the recovery loads another one, and this one is
reported dead during the teardown of a pause. -/
def pauseUnderReport : List Label :=
  [.call (.start "m"), .run 0 .go, .run 0 (.created [1]), .run 0 .go, .call (.generate "m"),
    .call (.generate "m"), .run 1 .coreDead, .run 2 .coreDead] ++ List.replicate 6 (.run 3 .go) ++
    [.run 3 (.created [2]), .run 3 .go, .call (.generate "m"), .call (.pause .immediate),
      .run 5 .go, .run 5 .go, .run 4 .coreDead] ++ List.replicate 4 (.run 5 .go) ++
    [.run 6 .go, .run 6 .go]

theorem notRunning_pauseUnderReport :
    ∃ s, system.exec {} pauseUnderReport = some s ∧ s.Quiet ∧
      s.engine.state ≠ .running ∧ s.engine.core = none := by
  let s : EngineSys :=
    { engine := { state := .paused, model := "m", loads := 2 }
      threads :=
        [⟨.start "m", .finished .returned, 0⟩, ⟨.generate "m", .finished .raised, 0⟩,
          ⟨.generate "m", .finished .raised, 0⟩, ⟨.recover, .finished .returned, 0⟩,
          ⟨.generate "m", .finished .raised, 0⟩, ⟨.pause .immediate, .finished .returned, 2⟩,
          ⟨.recover, .finished .returned, 0⟩]
      lastCommand := some .pause }
  have hrun : system.execGuarded (crashSafe · ·) {} pauseUnderReport = some s := by decide +kernel
  have hquiet : s.Quiet := by
    rintro (_ | _ | _ | _ | _ | _ | _ | k) pc ⟨⟩ <;> exact .inr ⟨_, rfl⟩
  exact ⟨s, by decide +kernel, hquiet, notRunning_of_quiet
    (Transition.System.Reach.execGuarded (.init (.inl rfl)) hrun) hquiet rfl⟩

/-- The core dies under a request, a pause finds the engine DEAD, and then the recovery
runs to its end. -/
def pauseWhileDead : List Label :=
  [.call (.start "m"), .run 0 .go, .run 0 (.created [1]), .run 0 .go, .call (.generate "m"),
    .run 1 .coreDead, .call (.pause .immediate), .run 3 .go] ++
    List.replicate 6 (.run 2 .go) ++ [.run 2 (.created [2]), .run 2 .go]

/-- A pause that finds the engine DEAD is forgotten, and the recovery reloads the model. -/
theorem pauseWhileDead_running :
    ∃ s, system.Reach Transition.System.anyStep s ∧ s.Quiet ∧ s.lastCommand = some .pause ∧
      s.engine.state = .running := by
  let s : EngineSys :=
    { engine :=
        { state := .running, core := some ⟨"m"⟩, model := "m", childPids := [2], live := [2],
          loads := 2 }
      threads :=
        [⟨.start "m", .finished .returned, 0⟩, ⟨.generate "m", .finished .raised, 0⟩,
          ⟨.recover, .finished .returned, 0⟩, ⟨.pause .immediate, .finished .returned, 1⟩]
      lastCommand := some .pause }
  have hrun : system.exec {} pauseWhileDead = some s := rfl
  refine ⟨s, Transition.System.reach_of_exec (.inl rfl) hrun, ?_, rfl, rfl⟩
  rintro (_ | _ | _ | _ | k) pc ⟨⟩ <;> exact .inr ⟨_, rfl⟩

end EngineSys

end OpenModel.Inference
