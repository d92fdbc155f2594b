import OpenModel.Inference.Coroutine
import Mathlib.Data.List.Basic

/-!
# Engines in one process

The engines of a pool share one process: one variable CUDA_VISIBLE_DEVICES, which a core reads
when it is forked, and one list of child processes, from which `_create_engine` takes its own
as the difference around the construction. The class-wide creation lock keeps the constructions
apart. Here the threads of any number of engines run in any order, also while a core is being
constructed, and children come and go, so nothing but the lock keeps them apart.

## Main results

- `VLLMEngine.runPc_owns`: an engine records and signals only what its constructions reported
- `Process.isolated_of_reach`: every core is forked for the devices of its own engine, and an
  engine signals only processes that its own creations forked
-/

namespace OpenModel.Inference

/-- The PIDs that the next step of the thread signals. -/
def Pc.signals : Pc → List Pid
  | destroy _ (.exitWait childPids) => childPids
  | _ => []

-- ════════════════════════════════════════════════════════════════════════
-- One thread
-- ════════════════════════════════════════════════════════════════════════

namespace VLLMEngine

variable {e : VLLMEngine} {slice : Slice} {own : Pid → Prop} {o : Outcome}

/-- What the engine has recorded, and what the thread has copied of it, is its own. -/
structure Owns (own : Pid → Prop) (e : VLLMEngine) (pc : Pc) : Prop where
  recorded : ∀ pid ∈ e.childPids, own pid
  copied : ∀ pid ∈ pc.signals, own pid

/-- The recorded processes stay, and nothing is about to be signalled. -/
def KeepsPids (e : VLLMEngine) (slice : Slice) : Prop :=
  slice.engine.childPids = e.childPids ∧ slice.pc.signals = []

theorem KeepsPids.owns (h : e.KeepsPids slice) (hrec : ∀ pid ∈ e.childPids, own pid) :
    slice.engine.Owns own slice.pc := by
  obtain ⟨hpids, hsignals⟩ := h
  exact ⟨by rwa [hpids], by simp [hsignals]⟩

theorem pauseReturn_keepsPids {c : Caller} : e.KeepsPids (e.pauseReturn c) := by
  cases c <;> exact ⟨rfl, rfl⟩

theorem pauseRaise_keepsPids {c : Caller} : e.KeepsPids (e.pauseRaise c) := by
  cases c <;> exact ⟨rfl, rfl⟩

theorem resumeReturn_keepsPids {c : Caller} : e.KeepsPids (e.resumeReturn c) := by
  cases c <;> exact ⟨rfl, rfl⟩

theorem reloadReturn_keepsPids {c : ReloadCaller} : e.KeepsPids (e.reloadReturn c) := by
  cases c with
  | pause c => exact pauseReturn_keepsPids
  | resume c => exact resumeReturn_keepsPids
  | recover => exact ⟨rfl, rfl⟩

theorem reloadFailed_keepsPids {r : Reload} : e.KeepsPids (e.reloadFailed r) := by
  unfold reloadFailed
  split_ifs <;> exact ⟨rfl, rfl⟩

theorem beginDestroy_keepsPids {t : Teardown} : e.KeepsPids (e.beginDestroy t) := by
  refine ⟨rfl, ?_⟩
  unfold beginDestroy
  split_ifs <;> rfl

theorem destroyed_keepsPids {t : Teardown} : e.KeepsPids (e.destroyed t) := by
  cases t with
  | pause c =>
    simp only [destroyed]
    split_ifs
    · exact ⟨rfl, rfl⟩
    · exact pauseReturn_keepsPids
  | reload r => exact reloadReturn_keepsPids
  | _ => exact ⟨rfl, rfl⟩

theorem destroyRaised_keepsPids {t : Teardown} : e.KeepsPids (e.destroyRaised t) := by
  cases t with
  | pause c => exact pauseRaise_keepsPids
  | reload r => exact reloadFailed_keepsPids
  | _ => exact ⟨rfl, rfl⟩

theorem critical_keepsPids {block : Critical} : e.KeepsPids (e.critical block) := by
  cases block with
  | startFinish =>
    simp only [critical]
    split_ifs
    · exact beginDestroy_keepsPids
    · exact ⟨rfl, rfl⟩
  | pauseLook urgency c =>
    simp only [critical]
    split_ifs
    · exact pauseReturn_keepsPids
    · exact pauseReturn_keepsPids
    · exact ⟨rfl, rfl⟩
    · exact ⟨rfl, rfl⟩
  | pauseTakeover c =>
    simp only [critical]
    split_ifs
    · exact pauseReturn_keepsPids
    · exact ⟨rfl, rfl⟩
  | pauseDestroy c => exact beginDestroy_keepsPids
  | resumeLook c =>
    simp only [critical]
    split_ifs
    · exact resumeReturn_keepsPids
    · exact resumeReturn_keepsPids
    · exact resumeReturn_keepsPids
    · exact ⟨rfl, rfl⟩
  | reloadFinish r =>
    simp only [critical]
    split_ifs
    · exact beginDestroy_keepsPids
    · exact reloadReturn_keepsPids
  | recoverBegin =>
    simp only [critical]
    split_ifs
    · exact ⟨rfl, rfl⟩
    · exact beginDestroy_keepsPids
  | stopBegin => exact beginDestroy_keepsPids
  | _ => exact ⟨rfl, rfl⟩

theorem enter_keepsPids {op : Op} : e.KeepsPids (e.enter op) := by
  cases op with
  | switchModel new =>
    simp only [enter, switchEnter]
    split_ifs <;> exact ⟨rfl, rfl⟩
  | generate requested =>
    simp only [enter, beginGenerate]
    split <;> exact ⟨rfl, rfl⟩
  | _ => exact ⟨rfl, rfl⟩

theorem generateStep_keepsPids {weights : ModelPath} {hasOutput : Bool}
    (h : e.generateStep weights hasOutput o = some slice) : e.KeepsPids slice := by
  cases o with
  | output =>
    simp only [generateStep] at h
    split_ifs at h <;> cases h <;> exact ⟨rfl, rfl⟩
  | ended =>
    cases h
    exact ⟨rfl, by cases hasOutput <;> rfl⟩
  | failed | stalled | coreDead =>
    cases h
    exact ⟨rfl, rfl⟩
  | _ => cases h

/-- A teardown copies what is recorded, signals its copy, and empties the record. -/
theorem destroyStep_owns {t : Teardown} {phase : Phase} (h : e.Owns own (.destroy t phase))
    (hslice : e.destroyStep t phase o = some slice) : slice.engine.Owns own slice.pc := by
  cases phase with
  | abort =>
    cases o <;> cases hslice
    refine ⟨h.recorded, ?_⟩
    show ∀ pid ∈ Pc.signals (.destroy t (if e.childPids = [] then .release else .exitWait e.childPids)),
      own pid
    split_ifs
    · simp [Pc.signals]
    · exact h.recorded
  | exitWait childPids =>
    cases o <;> cases hslice
    exact ⟨h.recorded, by simp [Pc.signals]⟩
  | killWait =>
    cases o <;> cases hslice
    exact ⟨by simp, by simp [Pc.signals]⟩
  | release =>
    cases o <;> cases hslice
    · exact destroyed_keepsPids.owns h.recorded
    · exact destroyRaised_keepsPids.owns h.recorded

/-- **Own processes**: an engine records what its construction reported, and signals what it
has recorded. -/
theorem runPc_owns {k : Nat} {op : Op} {pc : Pc} (h : e.Owns own pc)
    (ho : ∀ pids, o = .created pids → ∀ pid ∈ pids, own pid)
    (hslice : e.runPc k op pc o = some slice) : slice.engine.Owns own slice.pc := by
  have hkeeps (hk : e.KeepsPids slice) : slice.engine.Owns own slice.pc := hk.owns h.recorded
  cases pc with
  | created =>
    cases o <;> cases hslice
    exact hkeeps enter_keepsPids
  | lock block =>
    obtain ⟨l, -, rfl⟩ := runPc_block hslice
    exact critical_keepsPids.owns h.recorded
  | destroy t phase => exact destroyStep_owns h hslice
  | drain d =>
    obtain rfl := runPc_drain hslice
    cases d <;> exact hkeeps ⟨rfl, rfl⟩
  | load r =>
    cases o <;> cases hslice
    · exact ⟨ho _ rfl, by simp [Pc.signals]⟩
    · exact reloadFailed_keepsPids.owns h.recorded
  | startCreate =>
    cases o <;> cases hslice
    · exact ⟨ho _ rfl, by simp [Pc.signals]⟩
    · exact hkeeps ⟨rfl, rfl⟩
  | generating weights hasOutput => exact hkeeps (generateStep_keepsPids hslice)
  | retrySleep r =>
    cases o <;> cases hslice
    exact hkeeps ⟨rfl, rfl⟩
  | aborting =>
    cases o <;> cases hslice
    exact hkeeps ⟨rfl, rfl⟩
  | exitSleep | finished result => cases o <;> cases hslice

end VLLMEngine

namespace EngineSys

variable {s t : EngineSys} {own own' : Pid → Prop} {k : Nat} {o : Outcome} {l : Label}

/-- The PIDs that this step signals. -/
def signals (s : EngineSys) : Label → List Pid
  | .run k _ => ((s.pcAt k).map Pc.signals).getD []
  | _ => []

/-- What is recorded, and what any thread has copied, is the engine's own. -/
def Owns (own : Pid → Prop) (s : EngineSys) : Prop :=
  (∀ pid ∈ s.engine.childPids, own pid) ∧
    ∀ k pc, s.pcAt k = some pc → ∀ pid ∈ pc.signals, own pid

theorem Owns.mono (h : s.Owns own) (himp : ∀ pid, own pid → own' pid) : s.Owns own' :=
  ⟨fun pid hpid => himp pid (h.1 pid hpid),
    fun k pc hpc pid hpid => himp pid (h.2 k pc hpc pid hpid)⟩

theorem Owns.of_mem_signals {pid : Pid} (h : s.Owns own) (hpid : pid ∈ s.signals l) : own pid := by
  cases l with
  | run k o =>
    cases hpc : s.pcAt k with
    | none => simp [signals, hpc] at hpid
    | some pc => exact h.2 k pc hpc pid (by simpa [signals, hpc] using hpid)
  | _ => cases hpid

theorem Owns.spawn {op : Op} (h : s.Owns own) : (s.spawn op).Owns own := by
  refine ⟨h.1, fun k pc hpc => ?_⟩
  rw [pcAt_spawn] at hpc
  split_ifs at hpc
  · cases hpc
    simp [Pc.signals]
  · exact h.2 k pc hpc

theorem Owns.runThread (h : s.Owns own)
    (ho : ∀ pids, o = .created pids → ∀ pid ∈ pids, own pid) (hrun : s.runThread k o = some t) :
    t.Owns own := by
  obtain ⟨th, slice, hth, hslice, rfl⟩ := runThread_eq_some.mp hrun
  have howns : slice.engine.Owns own slice.pc :=
    VLLMEngine.runPc_owns ⟨h.1, h.2 k th.pc (pcAt_of_threads hth)⟩ ho hslice
  refine ⟨howns.recorded, fun j pc hpc => ?_⟩
  rw [pcAt_settle hth] at hpc
  split_ifs at hpc
  · cases hpc
    exact howns.copied
  · cases hpc
    simp [Pc.signals]
  · exact h.2 j pc hpc

theorem Owns.step (h : s.Owns own)
    (hl : ∀ k pids, l = .run k (.created pids) → ∀ pid ∈ pids, own pid)
    (hstep : s.step l = some t) : t.Owns own := by
  obtain ⟨op, -, rfl, rfl⟩ | ⟨op, -, rfl, hrun⟩ | ⟨k, o, rfl, hrun⟩ := step_cases hstep
  · exact h.spawn
  · exact h.spawn.runThread (fun pids ho => by cases ho) hrun
  · refine h.runThread (fun pids ho => ?_) hrun
    rw [ho] at hl
    exact hl k pids rfl

end EngineSys

-- ════════════════════════════════════════════════════════════════════════
-- The process
-- ════════════════════════════════════════════════════════════════════════

/-- A core process, with the engine whose creation forked it and the value of
CUDA_VISIBLE_DEVICES by then. -/
structure Forked where
  engine : Nat
  pid : Pid
  cudaVisibleDevices : Option String
  deriving DecidableEq, Repr

/-- A `_create_engine` past its `async with`, with its snapshot of the children. -/
structure Creation where
  engine : Nat
  thread : Nat
  preExisting : List Pid
  deriving DecidableEq, Repr

def Creation.isOf (c : Creation) (i k : Nat) : Bool := c.engine == i && c.thread == k

/-- An engine of the process. -/
structure Member where
  deviceIds : Option (List Int) := none
  sys : EngineSys := {}
  deriving DecidableEq, Repr

/-- The process, then what an observer has noted: the cores that were forked, and which engine
has signalled which PID. -/
structure Process where
  engines : List Member
  cudaVisibleDevices : Option String := none
  activeChildren : List Pid := []
  creationLock : AsyncLock (Nat × Nat) := {}
  creations : List Creation := []
  forked : List Forked := []
  signalled : List (Nat × Pid) := []
  deriving DecidableEq, Repr

inductive ProcessLabel
  /-- engine `i` takes a step, but for the end of a construction -/
  | engine (i : Nat) (l : Label)
  /-- thread `k` of engine `i` calls `_create_engine` -/
  | create (i k : Nat)
  /-- it has the creation lock -/
  | begin (i k : Nat)
  /-- its construction forks a core -/
  | fork (i k : Nat) (pid : Pid)
  /-- its construction has returned -/
  | created (i k : Nat)
  /-- its construction has raised -/
  | failed (i k : Nat)
  /-- a child exits -/
  | exit (pid : Pid)
  deriving DecidableEq, Repr

/-- `",".join(str(d) for d in self._device_ids)` -/
def cudaDevices (deviceIds : List Int) : String := ",".intercalate (deviceIds.map toString)

/-- About to construct a core. -/
def Pc.constructs : Pc → Bool
  | load _ | startCreate => true
  | _ => false

def Label.endsConstruction : Label → Bool
  | run _ (.created _) | run _ (.createFailed _) => true
  | _ => false

namespace Process

variable {s t : Process} {i j k : Nat} {l : ProcessLabel} {pid : Pid}

def deviceIds (s : Process) (i : Nat) : Option (List Int) := s.engines[i]?.bind Member.deviceIds

/-- Engine `i` takes a step. -/
def runEngine (s : Process) (i : Nat) (l : Label) : Option Process :=
  s.engines[i]?.bind fun m =>
    (m.sys.step l).map fun sys =>
      { s with
        engines := s.engines.set i { m with sys }
        signalled := s.signalled ++ (m.sys.signals l).map (i, ·) }

/-- Thread `k` of engine `i` stands in front of `_create_engine`. -/
def canCreate (s : Process) (i k : Nat) : Bool :=
  (s.engines[i]?.bind fun m => m.sys.pcAt k).any Pc.constructs &&
    !s.creationLock.waiters.contains (i, k) && !s.creations.any (·.isOf i k)

/-- Take the snapshot and set the variable. `active_children` does not raise, so neither here
nor at the end is its `except` taken. -/
def beginCreation (s : Process) (i k : Nat) : Process :=
  { s with
    creations := s.creations ++ [⟨i, k, s.activeChildren⟩]
    cudaVisibleDevices :=
      match s.deviceIds i with
      | some ids => some (cudaDevices ids)
      | none => s.cudaVisibleDevices }

/-- Leave `_create_engine`; `outcome` gets the difference of the children. -/
def endCreation (s : Process) (i k : Nat) (outcome : List Pid → Outcome) : Option Process :=
  (s.creations.find? (·.isOf i k)).bind fun c =>
    (s.runEngine i (.run k (outcome (s.activeChildren.filter (· ∉ c.preExisting))))).map fun t =>
      { t with
        creationLock := s.creationLock.release
        creations := s.creations.filter fun c => !c.isOf i k }

/-- One step. The threads of the engines are never scheduled any tighter than by the locks. -/
def step (s : Process) : ProcessLabel → Option Process
  | .engine i l => if l.endsConstruction then none else s.runEngine i l
  | .create i k =>
    if s.canCreate i k then some { s with creationLock := s.creationLock.acquire (i, k) } else none
  | .begin i k =>
    (s.creationLock.grant (i, k)).map fun lock => { s with creationLock := lock }.beginCreation i k
  | .fork i k pid =>
    if s.creations.any (·.isOf i k) then
      some { s with
        activeChildren := s.activeChildren ++ [pid]
        forked := s.forked ++ [⟨i, pid, s.cudaVisibleDevices⟩] }
    else none
  | .created i k => s.endCreation i k .created
  | .failed i k => s.endCreation i k .createFailed
  | .exit pid => some { s with activeChildren := s.activeChildren.filter (· ≠ pid) }

/-- New engines, and no core yet. -/
def init (s : Process) : Prop :=
  (∀ m ∈ s.engines, m.sys.init) ∧
    s = { engines := s.engines, cudaVisibleDevices := s.cudaVisibleDevices }

def system : Transition.System Process ProcessLabel := ⟨init, step⟩

/-- A creation of engine `i` forked this process. -/
def Born (s : Process) (i : Nat) (pid : Pid) : Prop :=
  ∃ f ∈ s.forked, f.engine = i ∧ f.pid = pid

/-- What the creation lock guarantees. -/
structure LockCovers (s : Process) : Prop where
  alone : s.creations.length ≤ 1
  locked : s.creationLock.locked = false → s.creations = []
  devices : ∀ c ∈ s.creations, ∀ ids ∈ s.deviceIds c.engine,
    s.cudaVisibleDevices = some (cudaDevices ids)
  attributed : ∀ c ∈ s.creations, ∀ pid ∈ s.activeChildren,
    pid ∈ c.preExisting ∨ s.Born c.engine pid
  owns : ∀ (i : Nat) (m : Member), s.engines[i]? = some m → m.sys.Owns (s.Born i)
  forked : ∀ f ∈ s.forked, ∀ ids ∈ s.deviceIds f.engine,
    f.cudaVisibleDevices = some (cudaDevices ids)
  signalled : ∀ x ∈ s.signalled, s.Born x.1 x.2

theorem lockCovers_of_init (h : s.init) : s.LockCovers := by
  obtain ⟨hsys, hs⟩ := h
  rw [hs]
  refine ⟨Nat.zero_le _, fun _ => rfl, by simp, by simp, fun i m hm => ?_, by simp, by simp⟩
  obtain hm | ⟨modelPath, hm⟩ := hsys m (List.mem_of_getElem? hm)
  · rw [hm]
    exact ⟨by simp, by simp [EngineSys.pcAt]⟩
  · rw [hm]
    exact ⟨by simp, by simp [EngineSys.pcAt]⟩

/-- A step of engine `i`, with its devices and the rest of the process as they were. -/
theorem runEngine_eq_some {l : Label} (h : s.runEngine i l = some t) :
    ∃ m sys, s.engines[i]? = some m ∧ m.sys.step l = some sys ∧
      t = { s with
        engines := s.engines.set i { m with sys }
        signalled := s.signalled ++ (m.sys.signals l).map (i, ·) } := by
  simp only [runEngine, Option.bind_eq_some_iff, Option.map_eq_some_iff] at h
  obtain ⟨m, hm, sys, hsys, rfl⟩ := h
  exact ⟨m, sys, hm, hsys, rfl⟩

theorem deviceIds_set {m : Member} {sys : EngineSys} {engines : List Member}
    (hm : engines[i]? = some m) :
    (((engines.set i { m with sys })[j]?).bind Member.deviceIds) =
      engines[j]?.bind Member.deviceIds := by
  rw [List.getElem?_set]
  split_ifs with hij hlt
  · rw [← hij, hm]
    rfl
  · rw [List.getElem?_eq_none (by omega)]
  · rfl

/-- Engine `i` takes a step in which it records only what its creations forked. -/
theorem LockCovers.runEngine {l : Label} (h : s.LockCovers)
    (hl : ∀ k pids, l = .run k (.created pids) → ∀ pid ∈ pids, s.Born i pid)
    (hstep : s.runEngine i l = some t) : t.LockCovers := by
  obtain ⟨m, sys, hm, hsys, rfl⟩ := runEngine_eq_some hstep
  have howns : m.sys.Owns (s.Born i) := h.owns i m hm
  refine ⟨h.alone, h.locked, fun c hc ids hids => ?_, h.attributed, fun j m' hm' => ?_,
    fun f hf ids hids => ?_, fun x hx => ?_⟩
  · exact h.devices c hc ids ((deviceIds_set hm).symm.trans hids)
  · rw [List.getElem?_set] at hm'
    split_ifs at hm' with hij
    · subst hij
      cases hm'
      exact howns.step hl hsys
    · exact h.owns j m' hm'
  · exact h.forked f hf ids ((deviceIds_set hm).symm.trans hids)
  · rcases List.mem_append.mp hx with hx | hx
    · exact h.signalled x hx
    · obtain ⟨pid, hpid, rfl⟩ := List.mem_map.mp hx
      exact howns.of_mem_signals hpid

/-- The lock was taken: no other creation is on its way. -/
theorem LockCovers.begin {lock : AsyncLock (Nat × Nat)} (h : s.LockCovers)
    (hgrant : s.creationLock.grant (i, k) = some lock) :
    ({ s with creationLock := lock }.beginCreation i k).LockCovers := by
  obtain ⟨hunlocked, -, hlocked⟩ := AsyncLock.grant_eq_some.mp hgrant
  have hnone : s.creations = [] := h.locked hunlocked
  refine ⟨by simp [beginCreation, hnone], fun hl => ?_, fun c hc ids hids => ?_,
    fun c hc pid hpid => ?_, h.owns, h.forked, h.signalled⟩
  · exact absurd (hlocked.symm.trans hl) (by decide)
  · obtain rfl : c = ⟨i, k, s.activeChildren⟩ := by simpa [beginCreation, hnone] using hc
    have hdev : s.deviceIds i = some ids := hids
    show (match s.deviceIds i with
      | some ids => some (cudaDevices ids)
      | none => s.cudaVisibleDevices) = _
    rw [hdev]
  · obtain rfl : c = ⟨i, k, s.activeChildren⟩ := by simpa [beginCreation, hnone] using hc
    exact .inl hpid

/-- A creation is the only one. -/
theorem LockCovers.creations_eq (h : s.LockCovers) {c : Creation} (hc : c ∈ s.creations) :
    s.creations = [c] := by
  have halone := h.alone
  cases hcreations : s.creations with
  | nil => simp [hcreations] at hc
  | cons c' cs =>
    rw [hcreations] at hc halone
    obtain rfl : cs = [] := List.length_eq_zero_iff.mp (by simpa using halone)
    rw [List.mem_singleton.mp hc]

/-- A construction forks a core. -/
theorem LockCovers.fork (h : s.LockCovers) (hc : s.creations.any (·.isOf i k)) :
    LockCovers { s with
      activeChildren := s.activeChildren ++ [pid]
      forked := s.forked ++ [⟨i, pid, s.cudaVisibleDevices⟩] } := by
  obtain ⟨c, hmem, hof⟩ := List.any_eq_true.mp hc
  obtain rfl : c.engine = i := by simpa [Creation.isOf] using (Bool.and_eq_true_iff.mp hof).1
  have hborn {j : Nat} {pid' : Pid} (hb : s.Born j pid') :
      Born { s with forked := s.forked ++ [⟨c.engine, pid, s.cudaVisibleDevices⟩] } j pid' := by
    obtain ⟨f, hf, hb⟩ := hb
    exact ⟨f, List.mem_append_left _ hf, hb⟩
  refine ⟨h.alone, h.locked, h.devices, fun c' hc' pid' hpid' => ?_,
    fun j m hm => (h.owns j m hm).mono fun _ => hborn, fun f hf ids hids => ?_,
    fun x hx => hborn (h.signalled x hx)⟩
  · have hc' : c' ∈ s.creations := hc'
    rw [h.creations_eq hmem, List.mem_singleton] at hc'
    subst hc'
    rcases List.mem_append.mp hpid' with hpid' | hpid'
    · exact (h.attributed c' hmem pid' hpid').imp_right hborn
    · obtain rfl := List.mem_singleton.mp hpid'
      exact .inr ⟨_, List.mem_append_right _ (List.mem_singleton_self _), rfl, rfl⟩
  · rcases List.mem_append.mp hf with hf | hf
    · exact h.forked f hf ids hids
    · obtain rfl := List.mem_singleton.mp hf
      exact h.devices c hmem ids hids

/-- The construction has ended; the difference of the children is its own. -/
theorem LockCovers.endCreation {outcome : List Pid → Outcome} (h : s.LockCovers)
    (hstep : s.endCreation i k outcome = some t) (houtcome : ∀ pids pids',
      outcome pids = .created pids' → pids = pids') : t.LockCovers := by
  simp only [Process.endCreation, Option.bind_eq_some_iff, Option.map_eq_some_iff] at hstep
  obtain ⟨c, hfind, u, hrun, rfl⟩ := hstep
  have hmem : c ∈ s.creations := List.mem_of_find?_eq_some hfind
  have hof : c.isOf i k = true := by simpa using List.find?_some hfind
  have hengine : c.engine = i := by simpa [Creation.isOf] using (Bool.and_eq_true_iff.mp hof).1
  have hu : u.LockCovers := by
    refine h.runEngine (fun k' pids hl pid hpid => ?_) hrun
    obtain rfl := houtcome _ _ (Label.run.inj hl).2
    obtain ⟨hchild, hnew⟩ := List.mem_filter.mp hpid
    rw [← hengine]
    exact (h.attributed c hmem pid hchild).resolve_left (of_decide_eq_true hnew)
  have hnone : s.creations.filter (fun c => !c.isOf i k) = [] := by
    rw [h.creations_eq hmem]
    simp [hof]
  rw [hnone]
  exact ⟨Nat.zero_le _, fun _ => rfl, by simp, by simp, hu.owns, hu.forked, hu.signalled⟩

theorem LockCovers.step (h : s.LockCovers) (hstep : s.step l = some t) : t.LockCovers := by
  cases l with
  | engine i l =>
    obtain ⟨hends, hrun⟩ := Option.ite_none_left_eq_some.mp hstep
    refine h.runEngine (fun k pids hl => ?_) hrun
    rw [hl] at hends
    exact absurd rfl hends
  | create i k =>
    obtain ⟨-, hs⟩ := Option.ite_none_right_eq_some.mp hstep
    cases hs
    exact ⟨h.alone, h.locked, h.devices, h.attributed, h.owns, h.forked, h.signalled⟩
  | begin i k =>
    obtain ⟨lock, hgrant, rfl⟩ := Option.map_eq_some_iff.mp hstep
    exact h.begin hgrant
  | fork i k pid =>
    obtain ⟨hc, hs⟩ := Option.ite_none_right_eq_some.mp hstep
    cases hs
    exact h.fork hc
  | created i k => exact h.endCreation hstep fun _ _ ho => Outcome.created.inj ho
  | failed i k => exact h.endCreation hstep fun _ _ ho => Outcome.noConfusion ho
  | exit pid =>
    cases hstep
    exact ⟨h.alone, h.locked, h.devices,
      fun c hc pid hpid => h.attributed c hc pid (List.mem_of_mem_filter hpid), h.owns, h.forked,
      h.signalled⟩

theorem lockCovers_of_reach (h : system.Reach Transition.System.anyStep s) : s.LockCovers :=
  h.invariant (fun _ => lockCovers_of_init) fun _ _ _ h _ hstep => h.step hstep

/-- **Isolation**: every core is forked for the devices of its own engine, and an engine
signals only processes that its own creations forked. -/
theorem isolated_of_reach (h : system.Reach Transition.System.anyStep s) :
    (∀ f ∈ s.forked, ∀ ids, s.deviceIds f.engine = some ids →
      f.cudaVisibleDevices = some (cudaDevices ids)) ∧
    ∀ i pid, (i, pid) ∈ s.signalled → s.Born i pid := by
  have hcovers := lockCovers_of_reach h
  exact ⟨fun f hf ids hids => hcovers.forked f hf ids hids,
    fun i pid hsignalled => hcovers.signalled (i, pid) hsignalled⟩

/-- Two engines start at once. The first is in its construction when the second asks for the
lock; later the first is paused and kills its core. -/
def startBoth : List ProcessLabel :=
  [.engine 0 (.call (.start "m")), .engine 0 (.run 0 .go), .engine 1 (.call (.start "m")),
    .engine 1 (.run 0 .go), .create 0 0, .begin 0 0, .create 1 0, .fork 0 0 7, .created 0 0,
    .begin 1 0, .engine 0 (.run 0 .go), .fork 1 0 8, .created 1 0,
    .engine 0 (.call (.pause .immediate))] ++ List.replicate 4 (.engine 0 (.run 1 .go))

theorem isolated_startBoth :
    ∃ s, system.Reach Transition.System.anyStep s ∧ s.signalled = [(0, 7)] ∧ s.Born 0 7 ∧
      ∀ f ∈ s.forked, ∀ ids, s.deviceIds f.engine = some ids →
        f.cudaVisibleDevices = some (cudaDevices ids) := by
  have hfinal : (system.exec { engines := [{ deviceIds := some [0] }, { deviceIds := some [1] }] }
      startBoth).any (fun s => s.signalled = [(0, 7)]) = true := by
    decide +kernel
  obtain ⟨s, hrun, hs⟩ := (Option.any_eq_true _ _).mp hfinal
  have hsignalled : s.signalled = [(0, 7)] := of_decide_eq_true hs
  have hreach : system.Reach Transition.System.anyStep s :=
    Transition.System.reach_of_exec ⟨by simp [EngineSys.init], rfl⟩ hrun
  obtain ⟨hdevices, hborn⟩ := isolated_of_reach hreach
  exact ⟨s, hreach, hsignalled, hborn 0 7 (by simp [hsignalled]), hdevices⟩

end Process

end OpenModel.Inference
