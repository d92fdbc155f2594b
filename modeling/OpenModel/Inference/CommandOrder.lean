import OpenModel.Inference.MiningRun

/-!
# Commands begin in the order of their creation

Tasks that are handed to the event loop begin first come, first served. So the commands on an
engine that have begun are the oldest ones, and the last command that took effect on an engine
at rest is the last one that was handed over.

## Main results

- `EngineSys.inOrder_of_reach`: the commands that have begun are the oldest ones
- `EngineSys.InOrder.empty_of_pause`: an engine at rest behind a pause holds nothing
-/

namespace OpenModel.Inference

/-- The task that is created or called. -/
def Label.op : Label → Option Op
  | .spawn op | .call op => some op
  | .run _ _ => none

/-- The task of a command that has not begun. -/
def Thread.unbegun (th : Thread) : Bool := th.pc == .created && th.op.command.isSome

theorem Thread.unbegun_eq_false {th : Thread} :
    th.unbegun = false ↔ (th.op.command.isSome → th.pc ≠ .created) := by
  cases hc : th.op.command <;> simp [unbegun, hc]

namespace EngineSys

/-- A command begins only when no earlier one is still to begin; commands are never called
directly. -/
def beginsInOrder (s : EngineSys) : Label → Bool
  | .spawn _ => true
  | .call op => op.command.isNone
  | .run k _ => !s.threads[k]?.any Thread.unbegun || (s.threads.take k).all (!·.unbegun)

/-- The coroutines on this engine, in the order of their creation. -/
def ops (s : EngineSys) : List Op := s.threads.map Thread.op

/-- The commands among them. -/
def issued (s : EngineSys) : List Command := s.ops.filterMap Op.command

/-- The commands among the first `n` tasks have begun, and no other ones. -/
structure InOrder (s : EngineSys) (n : Nat) : Prop where
  le_length : n ≤ s.threads.length
  begun : ∀ (j : Nat) (th : Thread), j < n → s.threads[j]? = some th → th.unbegun = false
  created : ∀ (j : Nat) (th : Thread), n ≤ j → s.threads[j]? = some th →
    th.op.command.isSome → th.pc = .created
  last : s.lastCommand = ((s.ops.take n).filterMap Op.command).getLast?

variable {s t : EngineSys} {k n : Nat} {o : Outcome} {th : Thread} {slice : Slice} {l : Label}

@[simp] theorem length_ops : s.ops.length = s.threads.length := List.length_map ..

theorem getElem?_ops : s.ops[k]? = s.threads[k]?.map Thread.op := List.getElem?_map ..

theorem ops_spawn {op : Op} : (s.spawn op).ops = s.ops ++ [op] := by
  simp [ops, spawn]

theorem ops_settle (hth : s.threads[k]? = some th) :
    (s.settle k th slice).ops = s.ops ++ if slice.spawn then [.recover] else [] := by
  have hset : (s.threads.set k { op := th.op, pc := slice.pc, mark :=
      if th.pc.atPauseLook then s.engine.loads else th.mark }).map Thread.op = s.ops := by
    rw [List.map_set]
    refine List.ext_getElem? fun j => ?_
    by_cases hj : k = j
    · subst hj
      have hk : k < (s.threads.map Thread.op).length := by
        rw [List.length_map]
        exact (List.getElem?_eq_some_iff.mp hth).1
      rw [List.getElem?_set_self hk, getElem?_ops, hth]
      rfl
    · rw [List.getElem?_set_ne hj]
      rfl
  rw [ops, settle, List.map_append, hset]
  split <;> rfl

/-- A step issues the command of the task that it creates. -/
theorem issued_of_step (hstep : s.step l = some t) :
    t.issued = s.issued ++ (l.op.bind Op.command).toList := by
  have hrun {k : Nat} {o : Outcome} {u : EngineSys} (hrun : u.runThread k o = some t) :
      t.issued = u.issued := by
    obtain ⟨th, slice, hth, -, rfl⟩ := runThread_eq_some.mp hrun
    rw [issued, ops_settle hth]
    split <;> simp [issued, Op.command]
  have hspawn (op : Op) : (s.spawn op).issued = s.issued ++ op.command.toList := by
    rw [issued, ops_spawn, List.filterMap_append, issued]
    cases hc : op.command <;> simp [hc]
  obtain ⟨op, -, rfl, rfl⟩ | ⟨op, -, rfl, h⟩ | ⟨k, o, rfl, h⟩ := step_cases hstep
  · exact hspawn op
  · rw [hrun h]
    exact hspawn op
  · rw [hrun h]
    exact (List.append_nil _).symm

/-- The thread at a place after another one has run. -/
theorem threads_settle_cases {j : Nat} {th' : Thread} (hth : s.threads[k]? = some th)
    (hj : (s.settle k th slice).threads[j]? = some th') :
    (j = k ∧ th'.op = th.op ∧ th'.pc = slice.pc) ∨ (j ≠ k ∧ s.threads[j]? = some th') ∨
      s.threads.length ≤ j ∧ th'.op = .recover := by
  have hk : k < s.threads.length := (List.getElem?_eq_some_iff.mp hth).1
  rw [settle] at hj
  by_cases hlt : j < s.threads.length
  · rw [List.getElem?_append_left (by simpa using hlt)] at hj
    by_cases hjk : j = k
    · subst hjk
      rw [List.getElem?_set_self hlt] at hj
      cases hj
      exact .inl ⟨rfl, rfl, rfl⟩
    · rw [List.getElem?_set_ne (Ne.symm hjk)] at hj
      exact .inr (.inl ⟨hjk, hj⟩)
  · rw [List.getElem?_append_right (by simpa using hlt)] at hj
    refine .inr (.inr ⟨not_lt.mp hlt, ?_⟩)
    split at hj
    · rw [List.mem_singleton.mp (List.mem_of_getElem? hj)]
    · cases hj

/-- The commands that have begun, and with them the last one, when a command begins. -/
theorem InOrder.take_succ (h : s.InOrder n) (hth : s.threads[k]? = some th) {c : Command}
    (hc : th.op.command = some c) (hnk : n ≤ k)
    (hbefore : ∀ (j : Nat) (x : Thread), j < k → s.threads[j]? = some x → x.unbegun = false) :
    (s.ops.take (k + 1)).filterMap Op.command =
      (s.ops.take n).filterMap Op.command ++ [c] := by
  have hop : s.ops[k]? = some th.op := by
    rw [getElem?_ops, hth]
    rfl
  have hbetween : ((s.ops.take k).drop n).filterMap Op.command = [] := by
    rw [List.filterMap_eq_nil_iff]
    intro op hmem
    obtain ⟨i, hi⟩ := List.mem_iff_getElem?.mp hmem
    rw [List.getElem?_drop, List.getElem?_take] at hi
    split_ifs at hi with hlt
    obtain ⟨x, hx, rfl⟩ := Option.map_eq_some_iff.mp (getElem?_ops.symm.trans hi)
    by_contra hsome
    have hcommand : x.op.command.isSome := Option.isSome_iff_ne_none.mpr hsome
    exact Thread.unbegun_eq_false.mp (hbefore _ x hlt hx) hcommand
      (h.created _ x (Nat.le_add_right n i) hx hcommand)
  have hsplit : s.ops.take k = s.ops.take n ++ (s.ops.take k).drop n := by
    conv_lhs => rw [← List.take_append_drop n (s.ops.take k)]
    rw [List.take_take, min_eq_left hnk]
  rw [List.take_add_one, hop, Option.toList_some, List.filterMap_append, hsplit,
    List.filterMap_append, hbetween, List.append_nil]
  simp [hc]

/-- A new task. -/
theorem InOrder.spawn (h : s.InOrder n) (op : Op) : (s.spawn op).InOrder n where
  le_length := h.le_length.trans (by simp [EngineSys.spawn])
  begun := fun j th hj hth => by
    rw [EngineSys.spawn, List.getElem?_append_left (hj.trans_le h.le_length)] at hth
    exact h.begun j th hj hth
  created := fun j th hj hth hc => by
    by_cases hlt : j < s.threads.length
    · rw [EngineSys.spawn, List.getElem?_append_left hlt] at hth
      exact h.created j th hj hth hc
    · rw [EngineSys.spawn, List.getElem?_append_right (not_lt.mp hlt)] at hth
      rw [List.mem_singleton.mp (List.mem_of_getElem? hth)]
  last := by
    rw [ops_spawn, List.take_append_of_le_length (by simpa using h.le_length)]
    exact h.last

/-- A thread runs; when this begins a command, no earlier command is left to begin. -/
theorem InOrder.runThread (h : s.InOrder n) (hrun : s.runThread k o = some t)
    (hbefore : ∀ th, s.threads[k]? = some th → th.unbegun →
      ∀ (j : Nat) (x : Thread), j < k → s.threads[j]? = some x → x.unbegun = false) :
    ∃ m, t.InOrder m := by
  obtain ⟨th, slice, hth, hslice, rfl⟩ := runThread_eq_some.mp hrun
  have hk : k < s.threads.length := (List.getElem?_eq_some_iff.mp hth).1
  have hstarted : slice.pc ≠ .created := VLLMEngine.runPc_ne_created hslice
  have hlength : s.threads.length ≤ (s.settle k th slice).threads.length := by simp [settle]
  cases hb : th.unbegun with
  | true =>
    -- the command of `th` begins
    obtain ⟨hpc, hsome⟩ := Bool.and_eq_true_iff.mp hb
    rw [beq_iff_eq] at hpc
    obtain ⟨c, hc⟩ := Option.isSome_iff_exists.mp hsome
    have hnk : n ≤ k := by
      by_contra hlt
      rw [h.begun k th (not_le.mp hlt) hth] at hb
      cases hb
    refine ⟨k + 1, by omega, fun j x hj hx => ?_, fun j x hj hx hxc => ?_, ?_⟩
    · obtain ⟨rfl, hop, hxpc⟩ | ⟨hne, hx⟩ | ⟨hle, hop⟩ := threads_settle_cases hth hx
      · exact Thread.unbegun_eq_false.mpr fun _ => hxpc ▸ hstarted
      · exact hbefore th hth hb j x (by omega) hx
      · omega
    · obtain ⟨rfl, -⟩ | ⟨-, hx⟩ | ⟨-, hop⟩ := threads_settle_cases hth hx
      · omega
      · exact h.created j x (by omega) hx hxc
      · rw [hop] at hxc
        cases hxc
    · rw [ops_settle hth, List.take_append_of_le_length (by rw [length_ops]; omega),
        h.take_succ hth hc hnk (hbefore th hth hb), List.getLast?_concat]
      simp [settle, hpc, hc]
  | false =>
    rw [Thread.unbegun_eq_false] at hb
    refine ⟨n, h.le_length.trans hlength, fun j x hj hx => ?_, fun j x hj hx hxc => ?_, ?_⟩
    · obtain ⟨rfl, hop, hxpc⟩ | ⟨-, hx⟩ | ⟨hle, -⟩ := threads_settle_cases hth hx
      · exact Thread.unbegun_eq_false.mpr fun _ => hxpc ▸ hstarted
      · exact h.begun j x hj hx
      · have := h.le_length
        omega
    · obtain ⟨rfl, hop, -⟩ | ⟨-, hx⟩ | ⟨-, hop⟩ := threads_settle_cases hth hx
      · rw [hop] at hxc
        exact absurd (h.created j th hj hth hxc) (hb hxc)
      · exact h.created j x hj hx hxc
      · rw [hop] at hxc
        cases hxc
    · rw [ops_settle hth, List.take_append_of_le_length (by simpa using h.le_length), ← h.last]
      show (if th.pc = .created then th.op.command <|> s.lastCommand else s.lastCommand) = _
      split
      · next hpc =>
        cases hc : th.op.command with
        | none => rfl
        | some c => exact absurd hpc (hb (by simp [hc]))
      · rfl

/-- **Step lemma**. -/
theorem InOrder.step (h : s.InOrder n) (hok : s.beginsInOrder l) (hstep : s.step l = some t) :
    ∃ m, t.InOrder m := by
  obtain ⟨op, -, rfl, rfl⟩ | ⟨op, -, rfl, hrun⟩ | ⟨k, o, rfl, hrun⟩ := step_cases hstep
  · exact ⟨n, h.spawn op⟩
  · refine (h.spawn op).runThread hrun fun th hth hb => ?_
    have hop : th.op = op := by
      rw [EngineSys.spawn, List.getElem?_append_right le_rfl] at hth
      rw [List.mem_singleton.mp (List.mem_of_getElem? hth)]
    simp only [beginsInOrder, Option.isNone_iff_eq_none] at hok
    simp [Thread.unbegun, hop, hok] at hb
  · refine h.runThread hrun fun th hth hb j x hj hx => ?_
    simp only [beginsInOrder, hth, Option.any_some, hb, Bool.not_true, Bool.false_or,
      List.all_eq_true, Bool.not_eq_true'] at hok
    refine hok x (List.mem_iff_getElem?.mpr ⟨j, ?_⟩)
    rw [List.getElem?_take, if_pos hj, hx]

theorem inOrder_init (h : s.init) : s.InOrder 0 := by
  obtain rfl | ⟨path, rfl⟩ := h <;>
    exact ⟨le_rfl, fun _ _ hj => absurd hj (Nat.not_lt_zero _), by simp, rfl⟩

/-- **Run lemma**. -/
theorem inOrder_of_reach {ok : EngineSys → Label → Prop} (hok : ∀ s l, ok s l → s.beginsInOrder l)
    (h : system.Reach ok s) : ∃ n, s.InOrder n :=
  h.invariant (I := fun s => ∃ n, s.InOrder n) (fun _ hs => ⟨0, inOrder_init hs⟩)
    fun s l _ ⟨_, hs⟩ hl hstep => hs.step (hok s l hl) hstep

/-- **At rest** the last command is the last one that was issued. -/
theorem InOrder.lastCommand_of_quiet (h : s.InOrder n) (hquiet : s.Quiet) :
    s.lastCommand = s.issued.getLast? := by
  have hrest : (s.ops.drop n).filterMap Op.command = [] := by
    rw [List.filterMap_eq_nil_iff]
    intro op hmem
    obtain ⟨i, hi⟩ := List.mem_iff_getElem?.mp hmem
    rw [List.getElem?_drop] at hi
    obtain ⟨x, hx, rfl⟩ := Option.map_eq_some_iff.mp (getElem?_ops.symm.trans hi)
    by_contra hsome
    have hpc := h.created _ x (Nat.le_add_right n i) hx (Option.isSome_iff_ne_none.mpr hsome)
    obtain hserves | ⟨result, hfinished⟩ := hquiet _ _ (pcAt_of_threads hx)
    · rw [hpc] at hserves
      cases hserves
    · rw [hpc] at hfinished
      cases hfinished
  rw [h.last, issued]
  conv_rhs => rw [← List.take_append_drop n s.ops]
  rw [List.filterMap_append, hrest, List.append_nil]

/-- **At rest behind a pause**: when the last command that was issued is a pause, an engine at rest
holds nothing. -/
theorem InOrder.empty_of_pause (h : s.InOrder n) (hr : system.Reach (crashSafe · ·) s)
    (hquiet : s.Quiet) (hpause : s.issued.getLast? = some .pause) :
    s.engine.state ≠ .running ∧ s.engine.core = none := by
  have hlooks : s.looks = [] := by
    have hwaiters : s.engine.transitionLock.waiters = [] := by
      refine List.eq_nil_iff_forall_not_mem.mpr fun k hk => ?_
      exact hquiet.not_at (fun _ => Pc.not_waits_of_serves) (fun _ => rfl) k
        (((lockAgrees_of_reach hr).mem_waiters k).mp hk)
    rw [looks, hwaiters, List.filterMap_nil]
  have hsettled := (yields_of_reach hr).settled ((h.lastCommand_of_quiet hquiet).trans hpause) hlooks
  exact hsettled.empty_of_quiet (custody_of_crashSafe hr) hquiet

/-- Nothing is in flight where every thread has ended. -/
theorem quiet_of_finished (h : s.threads.all fun th => th.pc.isFinished) : s.Quiet := by
  refine fun k pc hpc => .inr ?_
  obtain ⟨th, hth, rfl⟩ := Option.map_eq_some_iff.mp hpc
  have hfinished := List.all_eq_true.mp h th (List.mem_of_getElem? hth)
  cases hp : th.pc with
  | finished result => exact ⟨result, rfl⟩
  | _ => simp [hp, Pc.isFinished] at hfinished

end EngineSys

end OpenModel.Inference
