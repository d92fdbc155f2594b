import OpenModel.Inference.FreedPause
import OpenModel.Inference.MiningRun

/-!
# The last pause

A pause of the pool joins the queue of every engine behind all the commands before it, and
it stops the loop of a `resume` that is still running. So after the last pause has looked at
an engine nobody gets that engine off its way to holding nothing (`Settled`).

There is one exception. A pause that finds the engine UNLOADING returns, also when a
`resume` has left `_pending_resume` behind: then the teardown ends in a reload, and the
pause is lost.

## Main results

- `EngineSys.Pending.run`: the pause from its creation to its look at the engine
- `Pool.pauseKept_of_reach`: in the runs whose last pause finds no recorded resume, it is
  kept
-/

namespace OpenModel.Inference

open Transition (System)

def Op.starts : Op → Bool
  | start _ | resume => true
  | _ => false

theorem starts_of_isStart {op : Op} (h : op.isStart) : op.starts := by
  cases op <;> first | rfl | cases h

namespace EngineSys

variable {s t : EngineSys} {j k : Nat} {o : Outcome} {op : Op} {th : Thread} {slice : Slice}

/-- Every command to load the engine has joined the queue. -/
def Begun (s : EngineSys) : Prop :=
  ∀ (j : Nat) (th : Thread), s.threads[j]? = some th → th.op.starts → th.pc ≠ .created

/-- The last pause of this engine, thread `k`, and what is left of the commands before it. -/
inductive Pending (s : EngineSys) (k : Nat) : Prop
  | created (h : s.pcAt k = some .created)
  | queued (h : s.At Pc.atPauseLook k) (hbegun : s.Begun) (before after : List Nat)
      (hw : s.engine.transitionLock.waiters = before ++ k :: after)
      (hafter : ∀ j ∈ after, ¬ s.At Pc.starts j)
  | looked (hbegun : s.Begun) (hnone : ∀ j, ¬ s.At Pc.starts j) (hs : s.Settled)

/-- Thread `k` is a pause, and no later thread loads the engine. -/
structure LastCommand (s : EngineSys) (k : Nat) : Prop where
  isPause : ∃ th urgency, s.threads[k]? = some th ∧ th.op = .pause urgency
  newer : ∀ (j : Nat) (th : Thread), s.threads[j]? = some th → k < j → th.op.starts = false
  pending : s.Pending k

theorem noSwitch (h : s.Sound) (hth : s.threads[k]? = some th) (new : ModelPath) :
    th.op ≠ .switchModel new := by
  intro hop
  have := h.ops th (List.mem_of_getElem? hth)
  rw [hop] at this
  cases this

theorem starts_enter {e : VLLMEngine} (hop : op.mining) : (e.enter op).pc.starts = op.starts := by
  cases op with
  | generate requested =>
    simp only [VLLMEngine.enter, VLLMEngine.beginGenerate]
    split <;> rfl
  | start path | pause urgency | resume => rfl
  | _ => cases hop

theorem not_starts {pc : Pc} (hun : pc.unstarted = false) (hlook : pc.look = none) :
    pc.starts = false := by
  cases pc with
  | lock block =>
    cases block with
    | startBegin modelPath => cases hun
    | resumeLook c => simp [Pc.look] at hlook
    | _ => rfl
  | _ => rfl

/-- After its first stretch no thread joins the queue to look at the state. -/
theorem runPc_starts (h : s.Sound) (hth : s.threads[k]? = some th) (hpc : th.pc ≠ .created)
    (ho : o ≠ .coreDead) (hslice : s.engine.runPc k th.op th.pc o = some slice) :
    slice.pc.starts = false ∧ slice.pc ≠ .created := by
  have hplain := VLLMEngine.runPc_plain hpc ho hslice
  have hlook := runPc_look (noSwitch h hth) (h.belongs th (List.mem_of_getElem? hth)) hpc hslice
  have hun : slice.pc.unstarted = false := by
    simpa using (Bool.and_eq_true_iff.mp hplain).1
  refine ⟨not_starts hun hlook, ?_⟩
  intro hcreated
  rw [hcreated] at hun
  cases hun

theorem Begun.settle (h : s.Begun) (ho : o ≠ .coreDead) (hth : s.threads[k]? = some th)
    (hslice : s.engine.runPc k th.op th.pc o = some slice) : (s.settle k th slice).Begun := by
  intro j x hx hxop
  obtain ⟨-, -, hpc⟩ | ⟨-, hold⟩ := thread_of_settle hth (VLLMEngine.runPc_spawn ho hslice) hx
  · exact hpc ▸ VLLMEngine.runPc_ne_created hslice
  · exact h j x hold hxop

/-- What a pause finds that is not in front of a reload. -/
theorem pendingResume_of_heeds (h : s.Sound)
    (hheed : ¬ (s.engine.state = .unloading ∧ s.engine.pendingResume))
    (hs : s.engine.state = .running ∨ s.engine.state = .unloading) :
    s.engine.pendingResume = false := by
  obtain ⟨owner, hholding⟩ := h.own.exists_holding
  obtain hs | hs := hs
  · exact hholding.pendingResume.resolve_right (by simp [hs])
  · exact Bool.eq_false_iff.mpr fun hr => hheed ⟨hs, hr⟩

/-- Who stands in front of a load after a step stood there before it. -/
theorem starts_of_settle (h : s.Sound) (hbegun : s.Begun) (ho : o ≠ .coreDead)
    (hth : s.threads[k]? = some th) (hslice : s.engine.runPc k th.op th.pc o = some slice)
    {i : Nat} (hi : (s.settle k th slice).At Pc.starts i) : i ≠ k ∧ s.At Pc.starts i := by
  obtain ⟨-, hpc⟩ | hi := (at_settle rfl hth).mp hi
  · have hnot : slice.pc.starts = false := by
      by_cases hcreated : th.pc = .created
      · have hop : th.op.starts = false :=
          Bool.eq_false_iff.mpr fun hop => hbegun k th hth hop hcreated
        rw [hcreated] at hslice
        cases o <;> cases hslice
        exact (starts_enter (h.ops th (List.mem_of_getElem? hth))).trans hop
      · exact (runPc_starts h hth hcreated ho hslice).1
    cases hnot.symm.trans hpc
  · exact hi

theorem waits_of_starts (h : s.At Pc.starts j) : s.At Pc.waits j := by
  obtain ⟨pc, hpc, hst⟩ := h
  exact ⟨pc, hpc, by cases pc <;> simp_all [Pc.starts, Pc.waits]⟩

theorem Settled.look (hs : s.Settled) (h : s.Sound) (ho : o ≠ .coreDead) (ho' : o ≠ .cudaError)
    (hth : s.threads[k]? = some th) (hnone : th.pc.starts = false)
    (hslice : s.engine.runPc k th.op th.pc o = some slice) : (s.settle k th slice).Settled := by
  cases hlook : th.pc.look with
  | none =>
    refine hs.settle h.own.custody h.lock hth (noSwitch h hth) hlook
      ⟨fun _ _ _ h => absurd h ho, fun _ _ h => absurd h ho'⟩ (fun path hpc => ?_) hslice
    rw [hpc] at hnone
    cases hnone
  | some c =>
    cases c with
    | pause =>
      refine settled_of_pauseLook hth hlook h.state_ne_dead (pendingResume_of_heeds h ?_) hslice
      rintro ⟨hu, hr⟩
      cases (hs.pendingResume_of_unloading hu).symm.trans hr
    | resume =>
      exfalso
      cases hp : th.pc with
      | lock block => cases block <;> simp_all [Pc.look, Pc.starts]
      | _ => simp_all [Pc.look]

/-- Nobody is left to load the engine. -/
theorem looked_of_looked (hsound : s.Sound) (ho : o ≠ .coreDead) (ho' : o ≠ .cudaError)
    (hth : s.threads[k]? = some th) (hslice : s.engine.runPc k th.op th.pc o = some slice)
    (hbegun : s.Begun) (hnone : ∀ i, ¬ s.At Pc.starts i) (hs : s.Settled) :
    (s.settle k th slice).Pending j := by
  refine .looked (hbegun.settle ho hth hslice) (fun i hi => ?_)
    (hs.look hsound ho ho' hth ?_ hslice)
  · exact hnone i (starts_of_settle hsound hbegun ho hth hslice hi).2
  · exact Bool.eq_false_iff.mpr fun hst => hnone k ⟨_, pcAt_of_threads hth, hst⟩

/-- The pause joins the queue: the threads before it have started, and those after it load
nothing. -/
theorem LastCommand.join (h : s.LastCommand k) (hth : s.threads[k]? = some th)
    (hcreated : th.pc = .created) (hturn : s.InTurn k)
    (hslice : s.engine.runPc k th.op th.pc o = some slice) : (s.settle k th slice).Pending k := by
  obtain ⟨x, urgency, hx, hop⟩ := h.isPause
  obtain rfl := Option.some.inj (hth.symm.trans hx)
  rw [hop, hcreated] at hslice
  cases o <;> cases hslice
  refine .queued ⟨_, Ownership.settle_self hth _, rfl⟩ (fun i x hx hxop hpc => ?_) _ []
    settle_waiters (by simp)
  obtain ⟨-, -, hxpc⟩ | ⟨hik, hold⟩ := thread_of_settle hth rfl hx
  · cases hxpc.symm.trans hpc
  · obtain hlt | hgt := Nat.lt_or_gt_of_ne hik
    · exact hturn (hcreated ▸ pcAt_of_threads hth) i hlt (hpc ▸ pcAt_of_threads hold)
    · cases (h.newer i x hold hgt).symm.trans hxop

/-- The pause looks at the engine: whoever still waits joined the queue after it. -/
theorem looked_of_queued (hsound : s.Sound) (ho : o ≠ .coreDead)
    (hth : s.threads[k]? = some th) (hslice : s.engine.runPc k th.op th.pc o = some slice)
    (hbegun : s.Begun) {before after : List Nat}
    (hw : s.engine.transitionLock.waiters = before ++ k :: after)
    (hafter : ∀ j ∈ after, ¬ s.At Pc.starts j) (hlook : th.pc.atPauseLook)
    (hheed : ¬ (s.engine.state = .unloading ∧ s.engine.pendingResume)) :
    (s.settle k th slice).Pending k := by
  obtain ⟨urgency, c, hp⟩ : ∃ urgency c, th.pc = .lock (.pauseLook urgency c) := by
    cases hp : th.pc with
    | lock block => cases block <;> simp_all [Pc.atPauseLook]
    | _ => simp_all [Pc.atPauseLook]
  obtain ⟨hwaiters, hk⟩ := waiters_of_runPc hsound.lock hth hslice
  have hqueue : slice.engine.transitionLock.waiters = after := by
    rw [hw, hp] at hwaiters
    cases before with
    | nil => exact (List.cons.inj hwaiters).2.symm
    | cons b bs =>
      have hrest : bs ++ k :: after = slice.engine.transitionLock.waiters :=
        (List.cons.inj hwaiters).2
      exact absurd (hrest ▸ List.mem_append_right bs List.mem_cons_self) hk
  refine .looked (hbegun.settle ho hth hslice) (fun i hi => ?_) ?_
  · obtain ⟨hik, hi⟩ := starts_of_settle hsound hbegun ho hth hslice hi
    have hmem := (hsound.lock.mem_waiters i).mpr (waits_of_starts hi)
    rw [hwaiters, hqueue, hp] at hmem
    obtain hmem | hmem := List.mem_cons.mp hmem
    · exact hik hmem
    · exact hafter i hmem hi
  · exact settled_of_pauseLook hth (by rw [hp]; rfl) hsound.state_ne_dead
      (pendingResume_of_heeds hsound hheed) hslice

/-- Another thread runs: it leaves the head of the queue, or joins the end. -/
theorem queued_of_queued (hsound : s.Sound) (ho : o ≠ .coreDead) (hth : s.threads[k]? = some th)
    (hslice : s.engine.runPc k th.op th.pc o = some slice) (hkj : k ≠ j)
    (hlook : s.At Pc.atPauseLook j) (hbegun : s.Begun) {before after : List Nat}
    (hw : s.engine.transitionLock.waiters = before ++ j :: after)
    (hafter : ∀ i ∈ after, ¬ s.At Pc.starts i) : (s.settle k th slice).Pending j := by
  have hwaiters := (waiters_of_runPc hsound.lock hth hslice).1
  rw [hw] at hwaiters
  obtain ⟨before', hrest⟩ :
      ∃ before', slice.engine.transitionLock.waiters = before' ++ j :: after := by
    cases hwaits : th.pc.waits with
    | false => exact ⟨before, by simpa [hwaits] using hwaiters.symm⟩
    | true =>
      rw [hwaits] at hwaiters
      cases before with
      | nil => exact absurd (List.cons.inj hwaiters).1.symm hkj
      | cons b bs => exact ⟨bs, (List.cons.inj hwaiters).2.symm⟩
  refine .queued ?_ (hbegun.settle ho hth hslice) before'
    (after ++ if slice.pc.waits then [k] else []) ?_ fun i hi hst => ?_
  · rw [at_settle rfl hth]
    exact .inr ⟨Ne.symm hkj, hlook⟩
  · rw [settle_waiters, hrest, List.append_assoc, List.cons_append]
  · obtain ⟨hik, hst⟩ := starts_of_settle hsound hbegun ho hth hslice hst
    obtain hi | hi := List.mem_append.mp hi
    · exact hafter i hi hst
    · split_ifs at hi
      · exact hik (List.mem_singleton.mp hi)
      · cases hi

/-- **Step lemma**: the last pause keeps its place until it looks at the engine, and then the
engine stays on its way. -/
theorem LastCommand.settle (h : s.LastCommand j) (hsound : s.Sound) (ho : o ≠ .coreDead)
    (ho' : o ≠ .cudaError) (hth : s.threads[k]? = some th)
    (hslice : s.engine.runPc k th.op th.pc o = some slice) (hturn : k = j → s.InTurn k)
    (hheed : k = j → th.pc.atPauseLook →
      ¬ (s.engine.state = .unloading ∧ s.engine.pendingResume)) :
    (s.settle k th slice).LastCommand j := by
  have hspawn := VLLMEngine.runPc_spawn ho hslice
  refine ⟨?_, fun i x hx hji => ?_, ?_⟩
  · obtain ⟨x, urgency, hx, hop⟩ := h.isPause
    by_cases hkj : k = j
    · subst hkj
      obtain rfl := Option.some.inj (hth.symm.trans hx)
      exact ⟨_, urgency, settle_thread hth, hop⟩
    · refine ⟨x, urgency, ?_, hop⟩
      simpa [EngineSys.settle, hspawn, List.getElem?_set_ne hkj] using hx
  · obtain ⟨rfl, hop, -⟩ | ⟨-, hold⟩ := thread_of_settle hth hspawn hx
    · exact hop ▸ h.newer i th hth hji
    · exact h.newer i x hold hji
  · by_cases hkj : k = j
    · subst hkj
      cases h.pending with
      | created hpc =>
        have hcreated : th.pc = .created := Option.some.inj ((pcAt_of_threads hth).symm.trans hpc)
        exact h.join hth hcreated (hturn rfl) hslice
      | queued hlook hbegun before after hw hafter =>
        have hlook := (at_of_pcAt (pcAt_of_threads hth)).mp hlook
        exact looked_of_queued hsound ho hth hslice hbegun hw hafter hlook (hheed rfl hlook)
      | looked hbegun hnone hs => exact looked_of_looked hsound ho ho' hth hslice hbegun hnone hs
    · cases h.pending with
      | created hpc =>
        refine .created (Eq.trans ?_ hpc)
        rw [pcAt_settle hth, if_neg (Ne.symm hkj)]
        simp [hspawn]
      | queued hlook hbegun before after hw hafter =>
        exact queued_of_queued hsound ho hth hslice hkj hlook hbegun hw hafter
      | looked hbegun hnone hs => exact looked_of_looked hsound ho ho' hth hslice hbegun hnone hs

/-- A request is called. -/
theorem LastCommand.spawn (h : s.LastCommand j) (hop : op.starts = false) :
    (s.spawn op).LastCommand j := by
  obtain ⟨x, urgency, hx, hxop⟩ := h.isPause
  have hj : j < s.threads.length := (List.getElem?_eq_some_iff.mp hx).1
  have hbegun (hbegun : s.Begun) : (s.spawn op).Begun := by
    intro i y hy hyop
    obtain hy | ⟨-, rfl⟩ := thread_of_spawn hy
    · exact hbegun i y hy hyop
    · cases hop.symm.trans hyop
  refine ⟨⟨x, urgency, (List.getElem?_append_left hj).trans hx, hxop⟩, fun i y hy hji => ?_, ?_⟩
  · obtain hy | ⟨-, rfl⟩ := thread_of_spawn hy
    · exact h.newer i y hy hji
    · exact hop
  · cases h.pending with
    | created hpc =>
      refine .created ?_
      rw [pcAt_spawn, if_neg hj.ne]
      exact hpc
    | queued hlook hb before after hw hafter =>
      exact .queued ((at_spawn rfl).mpr hlook) (hbegun hb) before after hw
        fun i hi hst => hafter i hi ((at_spawn rfl).mp hst)
    | looked hb hnone hs =>
      exact .looked (hbegun hb) (fun i hi => hnone i ((at_spawn rfl).mp hi)) hs.spawn

theorem LastCommand.run (h : s.LastCommand j) (hsound : s.Sound) (ho : o ≠ .coreDead)
    (ho' : o ≠ .cudaError) (hturn : s.InTurn k)
    (hheed : k = j → s.At Pc.atPauseLook j →
      ¬ (s.engine.state = .unloading ∧ s.engine.pendingResume))
    (hstep : s.step (.run k o) = some t) : t.LastCommand j := by
  obtain ⟨th, slice, hth, hslice, rfl⟩ := runThread_eq_some.mp (runThread_of_run hstep)
  refine h.settle hsound ho ho' hth hslice (fun _ => hturn) ?_
  rintro rfl hlook
  exact hheed rfl ⟨_, pcAt_of_threads hth, hlook⟩

theorem LastCommand.call (h : s.LastCommand j) (hsound : s.Sound) (hmining : op.mining)
    (hop : op.starts = false) (hstep : s.step (.call op) = some t) : t.LastCommand j := by
  obtain ⟨x, urgency, hx, -⟩ := h.isPause
  have hj : s.threads.length ≠ j := (List.getElem?_eq_some_iff.mp hx).1.ne'
  obtain ⟨th, slice, hth, hslice, rfl⟩ := runThread_eq_some.mp (runThread_of_call hstep)
  refine (h.spawn hop).settle (hsound.spawn hmining fun hstart => ?_) Outcome.noConfusion
    Outcome.noConfusion hth hslice (fun hk => absurd hk hj) fun hk => absurd hk hj
  cases hop.symm.trans (starts_of_isStart hstart)

/-- Every engine in front of which the pause has just been put. -/
theorem lastCommand_of_spawn {urgency : YieldUrgency} :
    (s.spawn (.pause urgency)).LastCommand s.threads.length := by
  refine ⟨⟨{ op := .pause urgency }, urgency, by simp [EngineSys.spawn], rfl⟩,
    fun i x hx hlt => ?_, .created (by rw [pcAt_spawn, if_pos rfl])⟩
  have := (List.getElem?_eq_some_iff.mp hx).1
  simp only [EngineSys.spawn, List.length_append, List.length_singleton] at this
  omega

/-- A pause that has looked at the engine. -/
theorem LastCommand.looked (h : s.LastCommand j)
    (hpc : ∀ pc, s.pcAt j = some pc → pc ≠ .created ∧ pc.atPauseLook = false) :
    s.Settled ∧ ∀ i, ¬ s.At Pc.starts i := by
  cases h.pending with
  | created h => exact absurd rfl (hpc _ h).1
  | queued hlook _ _ _ _ _ =>
    obtain ⟨pc, hpcj, hlook⟩ := hlook
    cases (hpc _ hpcj).2.symm.trans hlook
  | looked _ hnone hs => exact ⟨hs, hnone⟩

/-- Without a waiting `resume` a PAUSED engine stays PAUSED. -/
theorem state_of_paused (hsound : s.Sound) (hnone : ∀ i, ¬ s.At Pc.starts i) (ho : o ≠ .coreDead)
    (hs : s.engine.state = .paused) (hstep : s.step (.run k o) = some t) :
    t.engine.state = .paused := by
  obtain ⟨th, slice, hth, hslice, rfl⟩ := runThread_eq_some.mp (runThread_of_run hstep)
  have hstarts (hst : th.pc.starts) : False := hnone k ⟨_, pcAt_of_threads hth, hst⟩
  refine (VLLMEngine.runPc_off (.inr hs) (hsound.role_eq_none (.inr hs) hth) ?_ ?_ ho hslice).trans hs
  · intro path hpc
    exact hstarts (by rw [hpc]; rfl)
  · intro c hpc
    exact absurd (by rw [hpc]; rfl) hstarts

end EngineSys

-- ════════════════════════════════════════════════════════════════════════
-- The pool
-- ════════════════════════════════════════════════════════════════════════

namespace Pool

variable {p q s t : Pool} {l : PoolLabel}

/-- No operation is in flight; admitted requests may still be served. -/
structure Quiet (s : Pool) : Prop where
  engines : ∀ (i : Nat) (e : EngineSys), s.engines[i]? = some e → e.Quiet
  tasks : ∀ (j : Nat) (task : Task), s.tasks[j]? = some task → task.op = .resume → task.pc = .done

/-- The steps of a mining run after its last command. -/
def Silent (s : Pool) (l : PoolLabel) : Prop := s.Mining l ∧ l.isCommand = false

instance (s : Pool) (l : PoolLabel) : Decidable (s.Silent l) := inferInstanceAs (Decidable (_ ∧ _))

/-- The pause that was called in `p` does not find an engine UNLOADING with a recorded
resume. -/
def Heeds (p s : Pool) : PoolLabel → Prop
  | .engine i k _ => ∀ e₀ ∈ p.engines[i]?, ∀ e ∈ s.engines[i]?, k = e₀.threads.length →
      e.At Pc.atPauseLook k → ¬ (e.engine.state = .unloading ∧ e.engine.pendingResume)
  | _ => True

instance (e : EngineSys) (P : Pc → Bool) (k : Nat) : Decidable (e.At P k) :=
  decidable_of_iff ((e.pcAt k).any P) (Option.any_eq_true _ _)

instance (p s : Pool) (l : PoolLabel) : Decidable (Heeds p s l) :=
  match l with
  | .engine _ _ _ => inferInstanceAs (Decidable (∀ e₀ ∈ p.engines[_]?, _))
  | .start _ | .startPaused _ | .requestPause | .pause _ | .resume | .request _ _ | .task _ _ =>
    .isTrue trivial

/-- Every engine has the pause of `p` as its last command, and `_pause_requested` stops the
loops of `resume`. -/
structure Pausing (p s : Pool) : Prop where
  engines : ∀ (i : Nat) (e : EngineSys), s.engines[i]? = some e →
    ∃ e₀, p.engines[i]? = some e₀ ∧ e.LastCommand e₀.threads.length
  requested : s.pauseRequested

theorem pausing_of_pause {urgency : YieldUrgency} (h : p.step (.pause urgency) = some q) :
    Pausing p q := by
  cases stepped_of_step h with
  | pause hes =>
    refine ⟨fun i e he => ?_, rfl⟩
    cases hes
    simp only [List.getElem?_map, Option.map_eq_some_iff] at he
    obtain ⟨e₀, he₀, rfl⟩ := he
    exact ⟨e₀, he₀, EngineSys.lastCommand_of_spawn⟩

/-- **Step lemma**. -/
theorem Pausing.step (h : Pausing p s) (hns : s.NoSwitching)
    (hsound : ∀ (i : Nat) (e : EngineSys), s.engines[i]? = some e → e.Sound) (hok : s.Silent l)
    (hheed : Heeds p s l) (hstep : s.step l = some t) : Pausing p t := by
  have hcalled := miningCall_of_called hns hok.1
  refine ⟨fun i e' he' => ?_, ?_⟩
  · obtain ⟨e, he, hm⟩ := move_of_step hstep he'
    obtain ⟨e₀, he₀, hlast⟩ := h.engines i e he
    refine ⟨e₀, he₀, ?_⟩
    cases hm with
    | same => exact hlast
    | startPaused => exact absurd hok.1 id
    | spawn hspawn =>
      rw [hspawn] at hcalled
      cases hcalled <;> cases hok.2
    | call hcall hrun =>
      rw [hcall] at hcalled
      cases hcalled with
      | startFirst => cases hok.2
      | resumeNext _ _ hpause => cases hpause.symm.trans h.requested
      | generate => exact hlast.call (hsound i e he) rfl rfl hrun
    | run hrun =>
      obtain ⟨ho, ho', hturn⟩ := hok.1
      refine hlast.run (hsound i e he) ho ho' (hturn e he) ?_ hrun
      rintro rfl
      exact hheed e₀ he₀ e he rfl
  · obtain ⟨-, -, hflag⟩ | ⟨path, rfl, -⟩ | ⟨rfl, -⟩ | ⟨-, hflag, -⟩ := flags_of_step hstep
    · exact hflag
    · cases hok.2
    · cases hok.2
    · exact hflag h.requested

/-- **Run lemma**. -/
theorem pausing_of_reach {urgency : YieldUrgency} (hp : system.Reach Mining p)
    (hpause : p.step (.pause urgency) = some q)
    (hs : (system.startingAt q).Reach (fun s l => s.Silent l ∧ Heeds p s l) s) :
    system.Reach Mining s ∧ Pausing p s := by
  have hq : system.Reach Mining q := .step hp (show p.Mining (.pause urgency) from trivial) hpause
  have hreach {s : Pool}
      (hs : (system.startingAt q).Reach (fun s l => s.Silent l ∧ Heeds p s l) s) :
      system.Reach Mining s := hq.trans (fun _ _ hok => hok.1.1) hs
  refine ⟨hreach hs, ?_⟩
  refine hs.invariant_of (J := system.Reach Mining) (fun _ => hreach) ?_ ?_
  · rintro s rfl
    exact pausing_of_pause hpause
  · intro s l t hs hI hok hstep
    obtain ⟨hns, hsound⟩ := sound_of_reach (fun _ _ h => h) hs
    exact hI.step hns hsound hok.1 hok.2 hstep

/-- What the pause that was called in `p` means in `s`: an engine at rest holds nothing, and
one whose pause has returned is not loaded again. -/
structure PauseKept (p s : Pool) : Prop where
  atRest : s.Quiet → ∀ (i : Nat) (e : EngineSys), s.engines[i]? = some e →
    e.engine.state ≠ .running ∧ e.engine.core = none
  afterReturn : ∀ (i : Nat) (e₀ e : EngineSys) (r : Result), p.engines[i]? = some e₀ →
    s.engines[i]? = some e → e.pcAt e₀.threads.length = some (.finished r) →
      e.engine.state = .paused → ∀ (l : PoolLabel) (t : Pool) (e' : EngineSys), s.Silent l →
        s.step l = some t → t.engines[i]? = some e' → e'.engine.state ≠ .loading

/-- **A deferred pause is kept**, in every run whose last pause finds no engine UNLOADING
with a recorded resume. -/
theorem pauseKept_of_reach {urgency : YieldUrgency} (hp : system.Reach Mining p)
    (hpause : p.step (.pause urgency) = some q)
    (hs : (system.startingAt q).Reach (fun s l => s.Silent l ∧ Heeds p s l) s) : PauseKept p s := by
  obtain ⟨hreach, hpausing⟩ := pausing_of_reach hp hpause hs
  obtain ⟨hns, hsound⟩ := sound_of_reach (fun _ _ h => h) hreach
  refine ⟨fun hquiet i e he => ?_, ?_⟩
  · obtain ⟨e₀, -, hlast⟩ := hpausing.engines i e he
    have hq := hquiet.engines i e he
    obtain ⟨hsettled, -⟩ := hlast.looked fun pc hpc => by
      obtain hserves | ⟨r, rfl⟩ := hq _ pc hpc
      · cases pc <;> first | exact ⟨Pc.noConfusion, rfl⟩ | cases hserves
      · exact ⟨Pc.noConfusion, rfl⟩
    exact hsettled.empty_of_quiet (hsound i e he).own.custody hq
  · intro i e₀ e r he₀ he hret hpaused l t e' hok hstep he'
    obtain ⟨e₁, he₁, hlast⟩ := hpausing.engines i e he
    obtain rfl := Option.some.inj (he₀.symm.trans he₁)
    obtain ⟨-, hnone⟩ := hlast.looked fun pc hpc => by
      obtain rfl := Option.some.inj (hret.symm.trans hpc)
      exact ⟨Pc.noConfusion, rfl⟩
    obtain ⟨e₂, he₂, hm⟩ := move_of_step hstep he'
    obtain rfl := Option.some.inj (he.symm.trans he₂)
    suffices hsame : e'.engine.state = .paused by simp [hsame]
    cases hm with
    | same => exact hpaused
    | startPaused => rfl
    | spawn _ => exact hpaused
    | call _ hcall => exact (EngineSys.state_of_call hcall).trans hpaused
    | run hrun => exact EngineSys.state_of_paused (hsound i e he) hnone hok.1.1 hpaused hrun

/-- One engine whose threads have all ended. -/
theorem quiet_of_single {e : EngineSys} (he : s.engines = [e])
    (hended : e.threads.all fun th => th.pc.isFinished)
    (htasks : s.tasks.all fun task => task.pc == .done) : s.Quiet := by
  refine ⟨fun i x hx k pc hpc => .inr ?_, fun j task hj _ => ?_⟩
  · obtain rfl : x = e := by
      rw [he] at hx
      exact List.mem_singleton.mp (List.mem_of_getElem? hx)
    obtain ⟨th, hth, rfl⟩ := Option.map_eq_some_iff.mp hpc
    have hfinished := List.all_eq_true.mp hended th (List.mem_of_getElem? hth)
    cases hp : th.pc with
    | finished result => exact ⟨result, rfl⟩
    | _ => simp [hp, Pc.isFinished] at hfinished
  · simpa using List.all_eq_true.mp htasks task (List.mem_of_getElem? hj)

/-- A resume gets the PAUSED engine into a load. -/
def resumeUntilLoading : List PoolLabel := [.resume, .task 0 (.go 0), .engine 0 0 .go]

/-- A pause that was called meanwhile looks at the engine. -/
def pauseLooks : List PoolLabel := List.replicate 2 (.engine 0 1 .go)

/-- The load ends in a teardown, and the loop of the resume stops. -/
def loadTornDown : List PoolLabel :=
  [.engine 0 0 (.created [1])] ++ List.replicate 5 (.engine 0 0 .go) ++
    List.replicate 2 (.task 0 (.go 0))

/-- A deferred pause: it finds the engine LOADING and is recorded, and the load that ends with a
core tears it down. -/
theorem pauseKept_loadTornDown :
    ∃ p q r s, system.execGuarded Mining pausedPool resumeUntilLoading = some p ∧
      p.engines.map (·.engine.state) = [.loading] ∧ p.step (.pause .immediate) = some q ∧
      (system.startingAt q).execGuarded (fun s l => s.Silent l ∧ Heeds p s l) q pauseLooks =
        some r ∧
      r.engines.map (·.engine.pendingPause) = [some .immediate] ∧
      (system.startingAt q).execGuarded (fun s l => s.Silent l ∧ Heeds p s l) r loadTornDown =
        some s ∧
      s.engines.map (·.engine.state) = [.paused] ∧ s.Quiet ∧ PauseKept p s := by
  let loading : EngineSys :=
    { engine := { state := .loading, model := "a", loads := 1 }
      threads := [⟨.resume, .load ⟨1, .resume .external⟩, 0⟩]
      lastCommand := some .resume }
  let deferred : EngineSys :=
    { engine := { state := .loading, model := "a", pendingPause := some .immediate, loads := 1 }
      threads :=
        [⟨.resume, .load ⟨1, .resume .external⟩, 0⟩, ⟨.pause .immediate, .finished .returned, 1⟩]
      lastCommand := some .pause }
  let paused : EngineSys :=
    { engine := { state := .paused, model := "a", loads := 1 }
      threads :=
        [⟨.resume, .finished .returned, 0⟩, ⟨.pause .immediate, .finished .returned, 1⟩]
      lastCommand := some .pause }
  let p : Pool :=
    { pausedPool with engines := [loading], yielded := false, tasks := [⟨.resume, .resumeAwait 0 0⟩] }
  let r : Pool :=
    { p with engines := [deferred], pauseRequested := true, yielded := true }
  let s : Pool := { r with engines := [paused], tasks := [⟨.resume, .done⟩] }
  have hp : system.execGuarded Mining pausedPool resumeUntilLoading = some p := by decide +kernel
  obtain ⟨q, hq, hr⟩ : ∃ q, p.step (.pause .immediate) = some q ∧
      (system.startingAt q).execGuarded (fun s l => s.Silent l ∧ Heeds p s l) q pauseLooks =
        some r :=
    ⟨_, rfl, by decide +kernel⟩
  have hs : (system.startingAt q).execGuarded (fun s l => s.Silent l ∧ Heeds p s l) r
      loadTornDown = some s := by
    cases hq
    decide +kernel
  have hreach : (system.startingAt q).Reach (fun s l => s.Silent l ∧ Heeds p s l) r :=
    .execGuarded (.init rfl) hr
  exact ⟨p, q, r, s, hp, rfl, hq, hr, rfl, hs, rfl, quiet_of_single rfl rfl rfl,
    pauseKept_of_reach (.execGuarded (.init init_pausedPool) hp) hq (hreach.execGuarded hs)⟩

/-- One RUNNING engine. -/
def runningPool : Pool where
  mode := .tensorParallel
  engines :=
    [{ engine :=
        { state := .running, core := some ⟨"a"⟩, model := "a", childPids := [1], live := [1],
          loads := 1 } }]
  ensured := [("a", "a")]

theorem init_runningPool : runningPool.init := by
  refine ⟨.started "a" "a", fun i e he => ?_, rfl⟩
  obtain ⟨rfl, rfl⟩ : i = 0 ∧ e = { engine :=
      { state := .running, core := some ⟨"a"⟩, model := "a", childPids := [1], live := [1],
        loads := 1 } } := by
    cases i <;> simp_all [runningPool]
  exact ⟨[1], rfl⟩

/-- Three resumes wait behind the teardown of a pause. The first loads the engine before the
others have looked at it, and meanwhile a pause and a resume are called. -/
def resumesBehindPause : List PoolLabel :=
  [.pause .immediate] ++ List.replicate 3 (.engine 0 0 .go) ++ List.replicate 3 .resume ++
    [.engine 0 1 .go, .engine 0 2 .go, .engine 0 3 .go] ++ List.replicate 4 (.engine 0 0 .go) ++
    [.engine 0 1 .go, .engine 0 1 (.created [2]), .engine 0 2 .go, .pause .immediate, .resume]

/-- After one more pause: the three commands join the queue behind the load that ends, and the
last one finds the engine UNLOADING. -/
def pauseWhileUnloading : List PoolLabel :=
  [.engine 0 3 .go, .engine 0 4 .go, .engine 0 5 .go, .engine 0 6 .go, .engine 0 1 .go,
    .engine 0 4 .go, .engine 0 5 .go, .engine 0 6 .go] ++ List.replicate 5 (.engine 0 4 .go) ++
    [.engine 0 4 (.created [3]), .engine 0 4 .go]

/-- The last pause is lost: at rest the engine is RUNNING. -/
theorem pauseWhileUnloading_not_pauseKept :
    ∃ p q s, system.Reach Mining p ∧ p.step (.pause .immediate) = some q ∧
      (system.startingAt q).Reach Silent s ∧ ¬ PauseKept p s := by
  let kept : EngineSys :=
    { engine :=
        { state := .loading, core := some ⟨"a"⟩, model := "a", transitionLock := ⟨false, [3, 1]⟩,
          childPids := [2], live := [2], loads := 2 }
      threads :=
        [⟨.pause .immediate, .finished .returned, 1⟩,
          ⟨.resume, .lock (.reloadFinish ⟨1, .resume .external⟩), 0⟩,
          ⟨.resume, .finished .returned, 0⟩, ⟨.resume, .lock (.resumeLook .external), 0⟩,
          ⟨.pause .immediate, .created, 0⟩, ⟨.resume, .created, 0⟩]
      lastCommand := some .resume }
  let running : EngineSys :=
    { engine :=
        { state := .running, core := some ⟨"a"⟩, model := "a", childPids := [3], live := [3],
          loads := 3 }
      threads :=
        [⟨.pause .immediate, .finished .returned, 1⟩, ⟨.resume, .finished .returned, 0⟩,
          ⟨.resume, .finished .returned, 0⟩, ⟨.resume, .finished .returned, 0⟩,
          ⟨.pause .immediate, .finished .returned, 2⟩, ⟨.resume, .finished .returned, 0⟩,
          ⟨.pause .immediate, .finished .returned, 2⟩]
      lastCommand := some .pause }
  let p : Pool := { runningPool with engines := [kept] }
  let s : Pool := { runningPool with engines := [running], pauseRequested := true, yielded := true }
  have hp : system.execGuarded Mining runningPool resumesBehindPause = some p := by decide +kernel
  obtain ⟨q, hq, hs⟩ : ∃ q, p.step (.pause .immediate) = some q ∧
      (system.startingAt q).execGuarded Silent q pauseWhileUnloading = some s :=
    ⟨_, rfl, by decide +kernel⟩
  refine ⟨p, q, s, .execGuarded (.init init_runningPool) hp, hq, .execGuarded (.init rfl) hs,
    fun hkept => ?_⟩
  exact (hkept.atRest (quiet_of_single rfl rfl rfl) 0 running rfl).1 rfl

end Pool

end OpenModel.Inference
