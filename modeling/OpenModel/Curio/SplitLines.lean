import OpenModel.Curio.LogWatcher

/-!
# Lines that are written in parts

The log only grows, in appends of any bytes. When the reader reaches the end of the file inside a
line, the loop of `Watch` drops the beginning of the line that `ReadString` returns with the
error, and looks for the text in the rest alone. Runs with a record of each line as it was read:
what was dropped of it, and what was looked at.

## Main results

- `SplitRun.accounted_of_log`: the record and what is unread make up the appended bytes
- `SplitRun.signals_iff`: when every announced win is signalled
-/

namespace OpenModel.Curio

/-- The log, the part of the current line that was dropped, and every line that was taken out of
the buffer with the part of it that had been dropped. -/
structure SplitRun where
  log : LogState
  dropped : List UInt8
  reads : List (List UInt8 × List UInt8)

namespace SplitRun

/-- What a step adds to the record. -/
def recorded (r : SplitRun) (log : LogState) : LogLabel → SplitRun
  | .line =>
    match Lines.splitFirst newline r.log.buffer with
    | some (line, _) => ⟨log, [], r.reads ++ [(r.dropped, line)]⟩
    | none => ⟨log, r.dropped, r.reads⟩
  | .eof => ⟨log, r.dropped ++ r.log.buffer, r.reads⟩
  | _ => ⟨log, r.dropped, r.reads⟩

def system : Transition.System SplitRun LogLabel where
  init r := LogState.system.init r.log ∧ r.dropped = [] ∧ r.reads = []
  step r label := (r.log.step label).map fun log => r.recorded log label

/-- The log is appended to, but neither renamed nor truncated. -/
def OnlyAppends (_ : SplitRun) : LogLabel → Prop
  | .rename => False
  | .create => False
  | .truncate _ => False
  | _ => True

instance (r : SplitRun) (label : LogLabel) : Decidable (OnlyAppends r label) :=
  match label with
  | .rename | .create | .truncate _ => inferInstanceAs (Decidable False)
  | .append _ | .fill _ | .line | .eof | .stat | .reopen | .wake =>
    inferInstanceAs (Decidable True)

/-- A line as it was written. -/
def written (x : List UInt8 × List UInt8) : List UInt8 := x.1 ++ x.2

/-- The record agrees with the log. -/
structure Accounted (r : SplitRun) : Prop where
  path : r.log.path = some r.log.cur
  offset : r.log.offset ≤ (r.log.files r.log.cur).length
  pc : r.log.pc ≠ .openPath
  bytes : (r.reads.map written).flatten ++ (r.dropped ++ r.log.unread) = r.log.appended
  lines : ∀ x ∈ r.reads, ∃ body, newline ∉ body ∧ written x = body ++ [newline]
  dropped : newline ∉ r.dropped
  signalled : r.log.signalled = (r.reads.map Prod.snd).filter announcesWin

variable {r : SplitRun}

theorem accounted_init (h : system.init r) : Accounted r := by
  obtain ⟨⟨hpath, -, happended, hoffset, hbuffer, hpc, hsignalled⟩, hdropped, hreads⟩ := h
  refine ⟨hpath, hoffset.le, by simp [hpc], ?_, by simp [hreads], by simp [hdropped], ?_⟩
  · simp [hreads, hdropped, LogState.unread, hbuffer, hoffset, happended]
  · simp [hsignalled, hreads]

theorem Accounted.append (h : Accounted r) {bytes : List UInt8} {log : LogState}
    (hstep : r.log.step (.append bytes) = some log) :
    Accounted ⟨log, r.dropped, r.reads⟩ := by
  obtain ⟨inode, hpath, rfl⟩ := Option.map_eq_some_iff.mp hstep
  obtain rfl : inode = r.log.cur := Option.some.inj (hpath.symm.trans h.path)
  refine ⟨h.path, ?_, h.pc, ?_, h.lines, h.dropped, h.signalled⟩
  · have hlong : r.log.offset ≤ (r.log.files r.log.cur ++ bytes).length := by
      rw [List.length_append]
      exact h.offset.trans (Nat.le_add_right _ _)
    show r.log.offset ≤
      ((r.log.setFile r.log.cur (r.log.files r.log.cur ++ bytes)).files r.log.cur).length
    rwa [LogState.setFile_files_self]
  · show (r.reads.map written).flatten ++ (r.dropped ++ (r.log.appendTo r.log.cur bytes).unread) =
      r.log.appended ++ bytes
    rw [LogState.unread_appendTo h.offset, ← List.append_assoc r.dropped, ← List.append_assoc,
      h.bytes]

theorem Accounted.fill (h : Accounted r) {count : Nat} {log : LogState}
    (hstep : r.log.step (.fill count) = some log) : Accounted ⟨log, r.dropped, r.reads⟩ := by
  simp only [LogState.step, Option.ite_none_right_eq_some, Option.some.injEq] at hstep
  obtain ⟨⟨-, -, -, -, hle⟩, rfl⟩ := hstep
  refine ⟨h.path, hle, h.pc, ?_, h.lines, h.dropped, h.signalled⟩
  rw [← h.bytes, ← LogState.unread_fill r.log count]
  rfl

theorem Accounted.line (h : Accounted r) {log : LogState}
    (hstep : r.log.step .line = some log) : Accounted (r.recorded log .line) := by
  simp only [LogState.step, Option.ite_none_right_eq_some] at hstep
  obtain ⟨-, hstep⟩ := hstep
  obtain ⟨⟨line, rest⟩, hsplit, rfl⟩ := Option.map_eq_some_iff.mp hstep
  obtain ⟨hbuffer, body, hbody, hline⟩ := Lines.splitFirst_eq_some hsplit
  simp only [recorded, hsplit]
  refine ⟨h.path, h.offset, h.pc, ?_, ?_, by simp, ?_⟩
  · rw [← h.bytes, List.map_append, List.flatten_append, LogState.unread, LogState.unread, hbuffer]
    simp [written]
  · intro x hx
    rcases List.mem_append.mp hx with hold | hnew
    · exact h.lines x hold
    · rw [List.mem_singleton] at hnew
      subst hnew
      refine ⟨r.dropped ++ body, ?_, by rw [written, hline, List.append_assoc]⟩
      rw [List.mem_append, not_or]
      exact ⟨h.dropped, hbody⟩
  · show (if announcesWin line then r.log.signalled ++ [line] else r.log.signalled) = _
    rw [h.signalled, List.map_append, List.filter_append]
    by_cases hwin : announcesWin line
    · simp [hwin]
    · simp [hwin]

theorem Accounted.eof (h : Accounted r) {log : LogState}
    (hstep : r.log.step .eof = some log) : Accounted (r.recorded log .eof) := by
  simp only [LogState.step, Option.ite_none_right_eq_some, Option.some.injEq] at hstep
  obtain ⟨⟨-, hbuffer, hend⟩, rfl⟩ := hstep
  refine ⟨h.path, h.offset, by simp [recorded], ?_, h.lines, ?_, h.signalled⟩
  · have hdrop : (r.log.files r.log.cur).drop r.log.offset = [] :=
      List.drop_eq_nil_of_le hend
    rw [recorded, ← h.bytes, LogState.unread, LogState.unread, hdrop]
    simp
  · rw [recorded, List.mem_append, not_or]
    exact ⟨h.dropped, hbuffer⟩

/-- Without a rename or a truncation the watcher goes back to sleep. -/
theorem Accounted.stat (h : Accounted r) {log : LogState}
    (hstep : r.log.step .stat = some log) : Accounted ⟨log, r.dropped, r.reads⟩ := by
  simp only [LogState.step, Option.ite_none_right_eq_some, Option.some.injEq] at hstep
  obtain ⟨-, rfl⟩ := hstep
  have hstay : r.log.reopens = false := by
    have := h.offset
    simp [LogState.reopens, h.path, this]
  rw [hstay]
  exact ⟨h.path, h.offset, by simp, h.bytes, h.lines, h.dropped, h.signalled⟩

/-- **Step lemma**. -/
theorem Accounted.step (h : Accounted r) {label : LogLabel} {r' : SplitRun}
    (hok : OnlyAppends r label) (hstep : system.step r label = some r') : Accounted r' := by
  obtain ⟨log, hlog, rfl⟩ := Option.map_eq_some_iff.mp hstep
  cases label with
  | append bytes => exact h.append hlog
  | rename => exact hok.elim
  | create => exact hok.elim
  | truncate size => exact hok.elim
  | fill count => exact h.fill hlog
  | line => exact h.line hlog
  | eof => exact h.eof hlog
  | stat => exact h.stat hlog
  | reopen =>
    simp only [LogState.step, if_neg h.pc] at hlog
    cases hlog
  | wake =>
    simp only [LogState.step, Option.ite_none_right_eq_some, Option.some.injEq] at hlog
    obtain ⟨-, rfl⟩ := hlog
    exact ⟨h.path, h.offset, by simp [recorded], h.bytes, h.lines, h.dropped, h.signalled⟩

/-- **Run lemma**: the lines that were read, whole, and what is unread make up the appended
bytes. -/
theorem accounted_of_log (h : system.Reach OnlyAppends r) : Accounted r :=
  h.invariant (fun _ h0 => accounted_init h0) fun _ _ _ hs hok hstep => hs.step hok hstep

/-- The lines that announce a win, for a watcher that has read all complete lines. -/
theorem Accounted.winLines_appended (h : Accounted r) (hcaught : newline ∉ r.log.unread) :
    winLines r.log.appended = (r.reads.map written).filter announcesWin := by
  have hrest : newline ∉ r.dropped ++ r.log.unread := by
    rw [List.mem_append, not_or]
    exact ⟨h.dropped, hcaught⟩
  rw [winLines, ← h.bytes, Lines.completeLines_flatten, Lines.completeLines_of_not_mem hrest,
    List.append_nil]
  intro line hline
  obtain ⟨x, hx, rfl⟩ := List.mem_map.mp hline
  exact h.lines x hx

/-- Of two conditions, one of which implies the other, as many elements satisfy the one as the
other if and only if they are equivalent there. -/
theorem length_filter_eq_iff {α : Type*} {p q : α → Bool} (h : ∀ x, p x = true → q x = true)
    (xs : List α) :
    (xs.filter p).length = (xs.filter q).length ↔ ∀ x ∈ xs, q x = true → p x = true := by
  rw [← List.countP_eq_length_filter, ← List.countP_eq_length_filter]
  induction xs with
  | nil => simp
  | cons x xs ih =>
    have hle : xs.countP p ≤ xs.countP q := List.countP_mono_left fun y _ => h y
    rw [List.countP_cons, List.countP_cons, List.forall_mem_cons, ← ih]
    by_cases hp : p x = true
    · simp [hp, h x hp]
    · by_cases hq : q x = true
      · simp only [hp, hq]
        simp
        omega
      · simp [hp, hq]

/-- **Exact condition**: in every run of a log that only grows, a watcher that has read all
complete lines has sent as many signals as there are lines announcing a win, if and only if in
each of them the text comes after the last end of the file that the reader met inside the line. -/
theorem signals_iff (h : system.Reach OnlyAppends r) (hcaught : newline ∉ r.log.unread) :
    r.log.signalled.length = (winLines r.log.appended).length ↔
      ∀ x ∈ r.reads, announcesWin (written x) = true → announcesWin x.2 = true := by
  have hacc := accounted_of_log h
  have hsuffix : ∀ x : List UInt8 × List UInt8, announcesWin x.2 = true →
      announcesWin (written x) = true := by
    intro x hx
    rw [announcesWin, decide_eq_true_eq] at hx ⊢
    exact hx.trans (List.suffix_append _ _).isInfix
  rw [hacc.winLines_appended hcaught, hacc.signalled, List.filter_map, List.filter_map,
    List.length_map, List.length_map]
  exact length_filter_eq_iff hsuffix r.reads

def started : SplitRun := ⟨.started, [], []⟩

theorem init_started : system.init started := ⟨LogState.init_started, rfl, rfl⟩

/-- A line in two appends, the text whole in the second one; another line and the beginning of a
third follow. -/
def splitBeforeText : List LogLabel :=
  [.append [50, 48, 50, 54, 32], .fill 3, .fill 2, .eof, .stat, .wake,
    .append (electionText ++ [newline, 50, 48, newline, 50]), .fill 26, .line, .fill 3, .line]

/-- A line with the text in two appends; the reader meets the end of the file between them. -/
def splitLine : List LogLabel :=
  [.append (electionText.take 12), .fill 12, .eof, .stat, .wake,
    .append (electionText.drop 12 ++ [newline]), .fill 13, .line]

/-- The end of the file inside a line does no harm before the text: the win is signalled. -/
theorem signals_splitBeforeText : ∃ r, system.Reach OnlyAppends r ∧ r.reads.length = 2 ∧
    r.log.signalled.length = (winLines r.log.appended).length ∧ r.log.signalled.length = 1 := by
  have hfinal : (system.execGuarded OnlyAppends started splitBeforeText).any (fun r => decide
      (newline ∉ r.log.unread ∧ r.reads.length = 2 ∧ r.log.signalled.length = 1 ∧
        ∀ x ∈ r.reads, announcesWin (written x) = true → announcesWin x.2 = true)) = true := by
    decide +kernel
  obtain ⟨r, hrun, hr⟩ := (Option.any_eq_true _ _).mp hfinal
  obtain ⟨hcaught, hreads, hone, hafter⟩ := of_decide_eq_true hr
  have hreach := (Transition.System.Reach.init init_started).execGuarded hrun
  exact ⟨r, hreach, hreads, (signals_iff hreach hcaught).mpr hafter, hone⟩

/-- Of the line in two parts the watcher has read everything and signalled nothing. -/
theorem splitLine_not_signalled : ∃ r, system.Reach OnlyAppends r ∧ r.log.unread = [] ∧
    (winLines r.log.appended).length = 1 ∧ r.log.signalled = [] := by
  have hfinal : (system.execGuarded OnlyAppends started splitLine).any (fun r => decide
      (r.log.unread = [] ∧ (winLines r.log.appended).length = 1 ∧ r.log.signalled = [])) = true := by
    decide +kernel
  obtain ⟨r, hrun, hr⟩ := (Option.any_eq_true _ _).mp hfinal
  exact ⟨r, (Transition.System.Reach.init init_started).execGuarded hrun, of_decide_eq_true hr⟩

end SplitRun

end OpenModel.Curio
