import OpenModel.Curio.LogWatcher

/-!
# Rotation and truncation of the log

Whole lines are appended while the log is renamed and replaced, or truncated in place. At the end
of the open file the watcher looks at the path once and leaves the file for good when another one
is there, or when it has become shorter than the offset. Between the steps the writer may still
append, rotate again, or make the truncated file grow.

`pending` are the lines announcing a win that the watcher will come to if it is left alone.

## Main results

- `LogState.Sound.step`: while the writer keeps out of the gaps, nothing is lost or repeated
- `LogState.Sound.exists_drained`: the watcher alone comes to the end of the log
- `LogState.signalledOnce_of_reach`: every line that announces a win is signalled exactly once
-/

namespace OpenModel.Curio

namespace LogState

/-- The file at the path is one that the watcher has yet to open and read from its start. -/
def toOpen (s : LogState) (inode : Nat) : Bool :=
  inode != s.cur || s.stale || decide (s.pc = .openPath)

/-- The lines announcing a win in the file at the path, if it has yet to be opened. -/
def ahead (s : LogState) : List (List UInt8) :=
  match s.path with
  | none => []
  | some inode => if s.toOpen inode then winLines (s.files inode) else []

/-- The lines announcing a win that are left in the open file, unless the watcher is leaving. -/
def here (s : LogState) : List (List UInt8) :=
  if s.pc = .openPath then [] else winLines s.unread

/-- The lines announcing a win that the watcher will come to. -/
def pending (s : LogState) : List (List UInt8) := s.here ++ s.ahead

/-- Whole lines are appended. A truncated file does not grow back to the watcher's offset before
the watcher has noticed, unless the bytes that it then skips announce nothing. Nor is a line that
announces a win made of, or joined to, what the reader still has of a line from before. -/
def AppendOk (s : LogState) (bytes : List UInt8) : Prop :=
  Lines.Whole newline bytes ∧
    (s.path = some s.cur → s.pc ≠ .openPath →
      if s.stale then
        s.offset ≤ (s.files s.cur).length + bytes.length →
          winLines (s.buffer ++ (s.files s.cur ++ bytes).drop s.offset) =
            winLines s.buffer ++ winLines (s.files s.cur ++ bytes)
      else winLines (s.unread ++ bytes) = winLines s.unread ++ winLines bytes)

/-- A file that the watcher has yet to open announces no win when it is renamed; nor does what was
appended to the open file after the watcher found its end. -/
def RenameOk (s : LogState) : Prop :=
  ∀ inode ∈ s.path,
    if s.toOpen inode then winLines (s.files inode) = []
    else s.pc = .statPath → winLines s.unread = []

/-- A truncation leaves whole lines. It cuts off no announced win that is unread or read in part,
and leaves none that was read before it. -/
def TruncateOk (s : LogState) (size : Nat) : Prop :=
  ∀ inode ∈ s.path,
    Lines.Whole newline ((s.files inode).take size) ∧
      if s.toOpen inode then winLines ((s.files inode).take size) = winLines (s.files inode)
      else if size < s.offset then
        winLines s.unread = winLines s.buffer ∧ winLines ((s.files inode).take size) = []
      else winLines (s.buffer ++ ((s.files inode).take size).drop s.offset) = winLines s.unread

/-- The writer keeps out of the gaps. -/
def KeepsOut (s : LogState) : LogLabel → Prop
  | .append bytes => s.AppendOk bytes
  | .rename => s.RenameOk
  | .truncate size => s.TruncateOk size
  | _ => True

instance (s : LogState) (bytes : List UInt8) : Decidable (s.AppendOk bytes) :=
  inferInstanceAs (Decidable (Lines.Whole newline bytes ∧
    (s.path = some s.cur → s.pc ≠ .openPath →
      if s.stale then
        s.offset ≤ (s.files s.cur).length + bytes.length →
          winLines (s.buffer ++ (s.files s.cur ++ bytes).drop s.offset) =
            winLines s.buffer ++ winLines (s.files s.cur ++ bytes)
      else winLines (s.unread ++ bytes) = winLines s.unread ++ winLines bytes)))

instance (s : LogState) : Decidable s.RenameOk :=
  inferInstanceAs (Decidable (∀ inode ∈ s.path,
    if s.toOpen inode then winLines (s.files inode) = []
    else s.pc = .statPath → winLines s.unread = []))

instance (s : LogState) (size : Nat) : Decidable (s.TruncateOk size) :=
  inferInstanceAs (Decidable (∀ inode ∈ s.path,
    Lines.Whole newline ((s.files inode).take size) ∧
      if s.toOpen inode then winLines ((s.files inode).take size) = winLines (s.files inode)
      else if size < s.offset then
        winLines s.unread = winLines s.buffer ∧ winLines ((s.files inode).take size) = []
      else winLines (s.buffer ++ ((s.files inode).take size).drop s.offset) = winLines s.unread))

instance (s : LogState) (label : LogLabel) : Decidable (s.KeepsOut label) :=
  match label with
  | .append bytes => inferInstanceAs (Decidable (s.AppendOk bytes))
  | .rename => inferInstanceAs (Decidable s.RenameOk)
  | .truncate size => inferInstanceAs (Decidable (s.TruncateOk size))
  | .create | .fill _ | .line | .eof | .stat | .reopen | .wake => inferInstanceAs (Decidable True)

/-- Nothing is lost or repeated. -/
structure Sound (s : LogState) : Prop where
  cur_lt : s.cur < s.nextInode
  path_lt : ∀ inode, s.path = some inode → inode < s.nextInode
  buffer : s.pc ≠ .reading → s.buffer = []
  unread_whole : s.path = some s.cur → s.stale = false → s.pc ≠ .openPath →
    Lines.Whole newline s.unread ∨ (s.files s.cur).length = s.offset
  file_whole : ∀ inode, s.path = some inode → s.toOpen inode = true →
    Lines.Whole newline (s.files inode)
  left : s.pc = .statPath ∨ s.pc = .openPath → s.path ≠ some s.cur → winLines s.unread = []
  appended_whole : Lines.Whole newline s.appended
  exact : s.signalled ++ s.pending = winLines s.appended

variable {s t : LogState}

theorem stale_eq_false : s.stale = false ↔ s.offset ≤ (s.files s.cur).length := by
  simp [stale]

theorem sound_init (h : system.init s) : Sound s := by
  obtain ⟨hpath, hcur, happended, hoffset, hbuffer, hpc, hsignalled⟩ := h
  have hunread : s.unread = [] := by simp [unread, hbuffer, hoffset]
  have hstale : s.stale = false := stale_eq_false.mpr hoffset.le
  have hopen : s.toOpen s.cur = false := by simp [toOpen, hstale, hpc]
  refine ⟨hcur, ?_, fun _ => hbuffer, ?_, ?_, ?_, ?_, ?_⟩
  · intro inode hinode
    rw [hpath] at hinode
    exact Option.some.inj hinode ▸ hcur
  · exact fun _ _ _ => .inr hoffset.symm
  · intro inode hinode hto
    rw [hpath] at hinode
    rw [← Option.some.inj hinode, hopen] at hto
    cases hto
  · rintro (h | h) <;> simp [hpc] at h
  · rw [happended]
    exact Lines.whole_nil
  · simp [hsignalled, pending, here, ahead, hpath, hopen, hunread, happended, winLines, hpc]

-- ════════════════════════════════════════════════════════════════════════
-- What is pending
-- ════════════════════════════════════════════════════════════════════════

theorem toOpen_eq_false {inode : Nat} :
    s.toOpen inode = false ↔ inode = s.cur ∧ s.stale = false ∧ s.pc ≠ .openPath := by
  simp [toOpen, and_assoc]

theorem here_of_ne (h : s.pc ≠ .openPath) : s.here = winLines s.unread := if_neg h

theorem pending_of_toOpen {inode : Nat} (hpath : s.path = some inode)
    (h : s.toOpen inode = true) : s.pending = s.here ++ winLines (s.files inode) := by
  simp [pending, ahead, hpath, h]

theorem pending_of_not_toOpen {inode : Nat} (hpath : s.path = some inode)
    (h : s.toOpen inode = false) : s.pending = winLines s.unread := by
  simp [pending, ahead, hpath, h, here_of_ne (toOpen_eq_false.mp h).2.2]

theorem pending_of_none (hpath : s.path = none) : s.pending = s.here := by
  simp [pending, ahead, hpath]

/-- A file that is shorter than the offset has nothing left to read. -/
theorem unread_of_stale (h : s.stale = true) : s.unread = s.buffer := by
  have hlt : (s.files s.cur).length < s.offset := by simpa [stale] using h
  rw [unread, List.drop_eq_nil_of_le hlt.le, List.append_nil]

theorem stale_setFile_self (bytes : List UInt8) :
    (s.setFile s.cur bytes).stale = decide (bytes.length < s.offset) := by
  show decide (((s.setFile s.cur bytes).files s.cur).length < s.offset) = _
  rw [setFile_files_self]

/-- In a file of whole lines, what follows an offset ends a line, unless nothing follows it. -/
theorem whole_drop_or {bytes : List UInt8} {n : Nat} (h : Lines.Whole newline bytes)
    (hn : n ≤ bytes.length) (buffer : List UInt8) :
    Lines.Whole newline (buffer ++ bytes.drop n) ∨ bytes.length = n := by
  by_cases hrest : bytes.drop n = []
  · rw [List.drop_eq_nil_iff] at hrest
    exact .inr (hrest.antisymm hn)
  · rw [← List.take_append_drop n bytes] at h
    exact .inl ((h.of_append_left hrest).append_left hrest buffer)

/-- Soundness while the watcher is on the file at the path. -/
theorem Sound.of_current (hcur : s.cur < s.nextInode) (hpath : s.path = some s.cur)
    (hopen : s.toOpen s.cur = false) (hbuffer : s.pc ≠ .reading → s.buffer = [])
    (hunread : Lines.Whole newline s.unread ∨ (s.files s.cur).length = s.offset)
    (happended : Lines.Whole newline s.appended)
    (hexact : s.signalled ++ winLines s.unread = winLines s.appended) : Sound s where
  cur_lt := hcur
  path_lt inode hinode := Option.some.inj (hpath.symm.trans hinode) ▸ hcur
  buffer := hbuffer
  unread_whole _ _ _ := hunread
  file_whole inode hinode hto := by
    rw [← Option.some.inj (hpath.symm.trans hinode), hopen] at hto
    cases hto
  left _ hne := absurd hpath hne
  appended_whole := happended
  exact := by rwa [pending_of_not_toOpen hpath hopen]

/-- Soundness while the file at the path has yet to be opened. -/
theorem Sound.of_toOpen {inode : Nat} (hcur : s.cur < s.nextInode) (hpath : s.path = some inode)
    (hlt : inode < s.nextInode) (hopen : s.toOpen inode = true)
    (hbuffer : s.pc ≠ .reading → s.buffer = [])
    (hfile : Lines.Whole newline (s.files inode))
    (hleft : s.pc = .statPath ∨ s.pc = .openPath → s.path ≠ some s.cur → winLines s.unread = [])
    (happended : Lines.Whole newline s.appended)
    (hexact : s.signalled ++ (s.here ++ winLines (s.files inode)) = winLines s.appended) :
    Sound s where
  cur_lt := hcur
  path_lt other hother := Option.some.inj (hpath.symm.trans hother) ▸ hlt
  buffer := hbuffer
  unread_whole hp hstale hpc := by
    have hinode : inode = s.cur := Option.some.inj (hpath.symm.trans hp)
    rw [toOpen_eq_false.mpr ⟨hinode, hstale, hpc⟩] at hopen
    cases hopen
  file_whole other hother _ := Option.some.inj (hpath.symm.trans hother) ▸ hfile
  left := hleft
  appended_whole := happended
  exact := by rwa [pending_of_toOpen hpath hopen]

/-- Soundness while there is no file at the path. -/
theorem Sound.of_absent (hcur : s.cur < s.nextInode) (hpath : s.path = none)
    (hbuffer : s.pc ≠ .reading → s.buffer = [])
    (hleft : s.pc = .statPath ∨ s.pc = .openPath → winLines s.unread = [])
    (happended : Lines.Whole newline s.appended)
    (hexact : s.signalled ++ s.here = winLines s.appended) : Sound s where
  cur_lt := hcur
  path_lt inode hinode := by
    rw [hpath] at hinode
    cases hinode
  buffer := hbuffer
  unread_whole hp := by
    rw [hpath] at hp
    cases hp
  file_whole inode hinode := by
    rw [hpath] at hinode
    cases hinode
  left hpc _ := hleft hpc
  appended_whole := happended
  exact := by rwa [pending_of_none hpath]

-- ════════════════════════════════════════════════════════════════════════
-- Steps of the writer
-- ════════════════════════════════════════════════════════════════════════

/-- The watcher will read what is appended to the file that it is reading. -/
theorem Sound.append_current (h : Sound s) (hpath : s.path = some s.cur)
    (hopen : s.toOpen s.cur = false) {bytes : List UInt8} (hw : Lines.Whole newline bytes)
    (hjoin : winLines (s.unread ++ bytes) = winLines s.unread ++ winLines bytes) :
    Sound (s.appendTo s.cur bytes) := by
  obtain ⟨-, hstale, hpc⟩ := toOpen_eq_false.mp hopen
  have hoffset := stale_eq_false.mp hstale
  have hnew := unread_appendTo hoffset bytes
  have hopen' : (s.appendTo s.cur bytes).toOpen s.cur = false := by
    refine toOpen_eq_false.mpr ⟨rfl, ?_, hpc⟩
    show (s.setFile s.cur (s.files s.cur ++ bytes)).stale = false
    rw [stale_setFile_self, List.length_append, decide_eq_false_iff_not]
    omega
  refine .of_current h.cur_lt hpath hopen' h.buffer ?_ (h.appended_whole.append hw) ?_
  · rw [hnew]
    by_cases hnone : bytes = []
    · subst hnone
      rw [List.append_nil]
      refine (h.unread_whole hpath hstale hpc).imp_right fun hlength => ?_
      show ((s.setFile s.cur (s.files s.cur ++ [])).files s.cur).length = s.offset
      rw [setFile_files_self, List.append_nil]
      exact hlength
    · exact .inl (hw.append_left hnone s.unread)
  · show s.signalled ++ _ = winLines (s.appended ++ bytes)
    rw [hnew, hjoin, winLines_append h.appended_whole, ← h.exact,
      pending_of_not_toOpen hpath hopen, List.append_assoc]

/-- The watcher will read what is appended to a file that it has yet to open. -/
theorem Sound.append_toOpen (h : Sound s) {inode : Nat} (hpath : s.path = some inode)
    (hopen : s.toOpen inode = true) {bytes : List UInt8} (hw : Lines.Whole newline bytes)
    (hopen' : (s.appendTo inode bytes).toOpen inode = true)
    (hhere : (s.appendTo inode bytes).here = s.here) : Sound (s.appendTo inode bytes) := by
  have hwhole := h.file_whole inode hpath hopen
  have hfile : (s.appendTo inode bytes).files inode = s.files inode ++ bytes :=
    setFile_files_self
  refine .of_toOpen h.cur_lt hpath (h.path_lt inode hpath) hopen' h.buffer ?_ ?_
    (h.appended_whole.append hw) ?_
  · rw [hfile]
    exact hwhole.append hw
  · intro hpc hne
    have hcur : s.cur ≠ inode := fun heq => hne (heq ▸ hpath)
    show winLines (s.setFile inode (s.files inode ++ bytes)).unread = []
    rw [unread_setFile_of_ne hcur]
    exact h.left hpc hne
  · show s.signalled ++ _ = winLines (s.appended ++ bytes)
    rw [hhere, hfile, winLines_append hwhole, winLines_append h.appended_whole, ← h.exact,
      pending_of_toOpen hpath hopen]
    simp only [List.append_assoc]

/-- A truncated file has grown back to the offset, and the watcher reads on from there. -/
theorem Sound.append_regrown (h : Sound s) (hpath : s.path = some s.cur) (hstale : s.stale = true)
    (hpc : s.pc ≠ .openPath) {bytes : List UInt8} (hw : Lines.Whole newline bytes)
    (hlong : s.offset ≤ (s.files s.cur).length + bytes.length)
    (hskip : winLines (s.buffer ++ (s.files s.cur ++ bytes).drop s.offset) =
      winLines s.buffer ++ winLines (s.files s.cur ++ bytes)) :
    Sound (s.appendTo s.cur bytes) := by
  have hopen : s.toOpen s.cur = true := by simp [toOpen, hstale]
  have hwhole := h.file_whole s.cur hpath hopen
  have hnew : (s.appendTo s.cur bytes).unread =
      s.buffer ++ (s.files s.cur ++ bytes).drop s.offset :=
    unread_setFile_self s (s.files s.cur ++ bytes)
  have hopen' : (s.appendTo s.cur bytes).toOpen s.cur = false := by
    refine toOpen_eq_false.mpr ⟨rfl, ?_, hpc⟩
    show (s.setFile s.cur (s.files s.cur ++ bytes)).stale = false
    rw [stale_setFile_self, List.length_append, decide_eq_false_iff_not]
    omega
  refine .of_current h.cur_lt hpath hopen' h.buffer ?_ (h.appended_whole.append hw) ?_
  · have hfile : (s.appendTo s.cur bytes).files s.cur = s.files s.cur ++ bytes :=
      setFile_files_self
    show _ ∨ ((s.appendTo s.cur bytes).files s.cur).length = s.offset
    rw [hnew, hfile]
    refine whole_drop_or (hwhole.append hw) ?_ s.buffer
    rwa [List.length_append]
  · show s.signalled ++ _ = winLines (s.appended ++ bytes)
    rw [hnew, hskip, winLines_append hwhole, winLines_append h.appended_whole, ← h.exact,
      pending_of_toOpen hpath hopen, here_of_ne hpc, unread_of_stale hstale]
    simp only [List.append_assoc]

/-- **Append**: the watcher will come to what is appended. -/
theorem Sound.append (h : Sound s) {bytes : List UInt8} (hok : s.AppendOk bytes)
    (hstep : s.step (.append bytes) = some t) : Sound t := by
  obtain ⟨inode, hpath, rfl⟩ := Option.map_eq_some_iff.mp hstep
  obtain ⟨hw, hgrow⟩ := hok
  by_cases hne : s.cur = inode
  · subst hne
    by_cases hpc : s.pc = .openPath
    · refine h.append_toOpen hpath (by simp [toOpen, hpc]) hw ?_ ?_
      · simp [toOpen, appendTo, setFile, hpc]
      · simp [here, appendTo, setFile, hpc]
    by_cases hstale : s.stale = true
    · have hskip := hgrow hpath hpc
      rw [if_pos hstale] at hskip
      by_cases hlong : s.offset ≤ (s.files s.cur).length + bytes.length
      · exact h.append_regrown hpath hstale hpc hw hlong (hskip hlong)
      · have hstale' : (s.appendTo s.cur bytes).stale = true := by
          show (s.setFile s.cur (s.files s.cur ++ bytes)).stale = true
          rw [stale_setFile_self, List.length_append, decide_eq_true_eq]
          exact Nat.not_le.mp hlong
        refine h.append_toOpen hpath (by simp [toOpen, hstale]) hw (by simp [toOpen, hstale']) ?_
        have hhere : (s.appendTo s.cur bytes).here = winLines (s.appendTo s.cur bytes).unread :=
          here_of_ne hpc
        rw [hhere, here_of_ne hpc, unread_of_stale hstale', unread_of_stale hstale]
        rfl
    · have hjoin := hgrow hpath hpc
      rw [if_neg hstale] at hjoin
      exact h.append_current hpath
        (toOpen_eq_false.mpr ⟨rfl, Bool.eq_false_iff.mpr hstale, hpc⟩) hw hjoin
  · have hopen : s.toOpen inode = true := by
      have hne' : inode ≠ s.cur := fun heq => hne heq.symm
      simp [toOpen, hne']
    refine h.append_toOpen hpath hopen hw ?_ ?_
    · have hne' : inode ≠ s.cur := fun heq => hne heq.symm
      simp [toOpen, appendTo, setFile, hne']
    · have hunread : (s.appendTo inode bytes).unread = s.unread := unread_setFile_of_ne hne _
      rw [here, here, hunread]
      rfl

/-- **Rename**: nothing is left behind. -/
theorem Sound.rename (h : Sound s) (hok : s.RenameOk) (hstep : s.step .rename = some t) :
    Sound t := by
  obtain ⟨inode, hpath, rfl⟩ := Option.map_eq_some_iff.mp hstep
  have hok := hok inode hpath
  refine .of_absent h.cur_lt rfl h.buffer ?_ h.appended_whole ?_
  · intro hpc
    show winLines s.unread = []
    by_cases hcur : s.path = some s.cur
    · obtain rfl : inode = s.cur := Option.some.inj (hpath.symm.trans hcur)
      have hpc : s.pc = .statPath ∨ s.pc = .openPath := hpc
      have hbuffer : s.buffer = [] := by
        refine h.buffer fun hreading => ?_
        rw [hreading] at hpc
        simp at hpc
      by_cases hopen : s.toOpen s.cur = true
      · rw [if_pos hopen] at hok
        rw [unread, hbuffer, List.nil_append]
        exact winLines_drop hok s.offset
      · rw [if_neg hopen] at hok
        have hleaving := (toOpen_eq_false.mp (Bool.eq_false_iff.mpr hopen)).2.2
        exact hok (hpc.resolve_right hleaving)
    · exact h.left hpc hcur
  · show s.signalled ++ s.here = winLines s.appended
    rw [← h.exact]
    by_cases hopen : s.toOpen inode = true
    · rw [if_pos hopen] at hok
      rw [pending_of_toOpen hpath hopen, hok, List.append_nil]
    · have hopen := Bool.eq_false_iff.mpr hopen
      rw [pending_of_not_toOpen hpath hopen, here_of_ne (toOpen_eq_false.mp hopen).2.2]

/-- **Create**: an empty file, which the watcher has yet to open. -/
theorem Sound.create (h : Sound s) (hstep : s.step .create = some t) : Sound t := by
  simp only [step, Option.ite_none_right_eq_some, Option.some.injEq] at hstep
  obtain ⟨hnone, rfl⟩ := hstep
  have hpath : s.path = none := Option.isNone_iff_eq_none.mp hnone
  have hne : s.cur ≠ s.nextInode := by
    have := h.cur_lt
    omega
  have hunread : (s.setFile s.nextInode []).unread = s.unread := unread_setFile_of_ne hne []
  have hfile : (s.setFile s.nextInode []).files s.nextInode = [] := setFile_files_self
  have hopen : (s.nextInode != s.cur) = true := by simpa using hne.symm
  refine .of_toOpen (h.cur_lt.trans (Nat.lt_succ_self _)) rfl
    (Nat.lt_succ_self _) ?_ h.buffer ?_ ?_ h.appended_whole ?_
  · simp [toOpen, setFile, hne.symm]
  · show Lines.Whole newline ((s.setFile s.nextInode []).files s.nextInode)
    rw [hfile]
    exact Lines.whole_nil
  · intro hpc _
    show winLines (s.setFile s.nextInode []).unread = []
    rw [hunread]
    exact h.left hpc (by simp [hpath])
  · have hhere : (s.setFile s.nextInode []).here = s.here := by
      rw [here, here, hunread]
      rfl
    show s.signalled ++ ((s.setFile s.nextInode []).here ++
      winLines ((s.setFile s.nextInode []).files s.nextInode)) = winLines s.appended
    rw [hhere, hfile, ← h.exact, pending_of_none hpath]
    simp [winLines]

/-- A truncated file that the watcher has yet to open. -/
theorem Sound.truncate_toOpen (h : Sound s) {inode size : Nat} (hpath : s.path = some inode)
    (hopen : s.toOpen inode = true) (hw : Lines.Whole newline ((s.files inode).take size))
    (hkept : winLines ((s.files inode).take size) = winLines (s.files inode)) :
    Sound (s.setFile inode ((s.files inode).take size)) := by
  have hfile : (s.setFile inode ((s.files inode).take size)).files inode =
      (s.files inode).take size := setFile_files_self
  have hexact := h.exact
  rw [pending_of_toOpen hpath hopen] at hexact
  have hrest : (s.setFile inode ((s.files inode).take size)).toOpen inode = true ∧
      (s.setFile inode ((s.files inode).take size)).here = s.here := by
    by_cases hne : s.cur = inode
    · subst hne
      by_cases hpc : s.pc = .openPath
      · exact ⟨by simp [toOpen, setFile, hpc], by simp [here, setFile, hpc]⟩
      · have hstale : s.stale = true := by simpa [toOpen, hpc] using hopen
        have hlt : (s.files s.cur).length < s.offset := by simpa [stale] using hstale
        have hstale' : (s.setFile s.cur ((s.files s.cur).take size)).stale = true := by
          rw [stale_setFile_self, decide_eq_true_eq, List.length_take]
          omega
        have hhere : (s.setFile s.cur ((s.files s.cur).take size)).here =
            winLines (s.setFile s.cur ((s.files s.cur).take size)).unread := here_of_ne hpc
        refine ⟨by simp [toOpen, hstale'], ?_⟩
        rw [hhere, here_of_ne hpc, unread_of_stale hstale', unread_of_stale hstale]
        rfl
    · have hne' : inode ≠ s.cur := fun heq => hne heq.symm
      refine ⟨by simp [toOpen, setFile, hne'], ?_⟩
      rw [here, here, unread_setFile_of_ne hne]
      rfl
  refine .of_toOpen h.cur_lt hpath (h.path_lt inode hpath) hrest.1 h.buffer ?_ ?_
    h.appended_whole ?_
  · rwa [hfile]
  · intro hpc hp
    have hcur : s.cur ≠ inode := fun heq => hp (heq ▸ hpath)
    rw [unread_setFile_of_ne hcur]
    exact h.left hpc hp
  · rw [hrest.2, hfile, hkept]
    exact hexact

/-- **Truncation**: what is cut off has been read, what is left announces nothing again. -/
theorem Sound.truncate (h : Sound s) {size : Nat} (hok : s.TruncateOk size)
    (hstep : s.step (.truncate size) = some t) : Sound t := by
  obtain ⟨inode, hpath, rfl⟩ := Option.map_eq_some_iff.mp hstep
  obtain ⟨hw, hok⟩ := hok inode hpath
  by_cases hopen : s.toOpen inode = true
  · rw [if_pos hopen] at hok
    exact h.truncate_toOpen hpath hopen hw hok
  · rw [if_neg hopen] at hok
    have hopen := Bool.eq_false_iff.mpr hopen
    obtain ⟨rfl, hstale, hpc⟩ := toOpen_eq_false.mp hopen
    have hexact := h.exact
    rw [pending_of_not_toOpen hpath hopen] at hexact
    have hfile : (s.setFile s.cur ((s.files s.cur).take size)).files s.cur =
        (s.files s.cur).take size := setFile_files_self
    by_cases hsize : size < s.offset
    · rw [if_pos hsize] at hok
      have hstale' : (s.setFile s.cur ((s.files s.cur).take size)).stale = true := by
        rw [stale_setFile_self, decide_eq_true_eq, List.length_take]
        omega
      have hhere : (s.setFile s.cur ((s.files s.cur).take size)).here =
          winLines (s.setFile s.cur ((s.files s.cur).take size)).unread := here_of_ne hpc
      refine .of_toOpen h.cur_lt hpath h.cur_lt (by simp [toOpen, hstale']) h.buffer ?_
        (fun _ hne => absurd hpath hne) h.appended_whole ?_
      · rwa [hfile]
      · rw [hhere, unread_of_stale hstale', hfile, hok.2, List.append_nil]
        show s.signalled ++ winLines s.buffer = _
        rw [← hok.1]
        exact hexact
    · rw [if_neg hsize] at hok
      have hoffset := stale_eq_false.mp hstale
      have hnew := unread_setFile_self s ((s.files s.cur).take size)
      refine .of_current h.cur_lt hpath (toOpen_eq_false.mpr ⟨rfl, ?_, hpc⟩) h.buffer ?_
        h.appended_whole ?_
      · rw [stale_setFile_self, decide_eq_false_iff_not, List.length_take]
        omega
      · show _ ∨ ((s.setFile s.cur ((s.files s.cur).take size)).files s.cur).length = s.offset
        rw [hnew, hfile]
        refine whole_drop_or hw ?_ s.buffer
        rw [List.length_take]
        omega
      · rw [hnew, hok]
        exact hexact

-- ════════════════════════════════════════════════════════════════════════
-- Steps of the watcher
-- ════════════════════════════════════════════════════════════════════════

/-- A step of a watcher that is not leaving its file, and goes on without leaving it. -/
theorem Sound.congr (h : Sound s) (hfiles : t.files = s.files) (hpath : t.path = s.path)
    (hnext : t.nextInode = s.nextInode) (happended : t.appended = s.appended)
    (hcur : t.cur = s.cur) (hstale : t.stale = s.stale)
    (hpc : s.pc ≠ .openPath) (hpc' : t.pc ≠ .openPath)
    (hbuffer : t.pc ≠ .reading → t.buffer = [])
    (hwhole : Lines.Whole newline s.unread ∨ (s.files s.cur).length = s.offset →
      Lines.Whole newline t.unread ∨ (t.files t.cur).length = t.offset)
    (hleft : t.pc = .statPath → winLines t.unread = [])
    (hexact : t.signalled ++ winLines t.unread = s.signalled ++ winLines s.unread) : Sound t := by
  have hto : ∀ inode, t.toOpen inode = s.toOpen inode := by
    intro inode
    simp [toOpen, hcur, hstale, hpc, hpc']
  have hahead : t.ahead = s.ahead := by
    simp only [ahead, hpath, hfiles, hto]
  refine ⟨?_, ?_, hbuffer, ?_, ?_, ?_, ?_, ?_⟩
  · rw [hcur, hnext]
    exact h.cur_lt
  · rw [hpath, hnext]
    exact h.path_lt
  · intro hp hst _
    rw [hpath, hcur] at hp
    exact hwhole (h.unread_whole hp (hstale ▸ hst) hpc)
  · intro inode hp hopen
    rw [hfiles]
    exact h.file_whole inode (hpath ▸ hp) (hto inode ▸ hopen)
  · rintro (hstat | hleaving) _
    · exact hleft hstat
    · exact absurd hleaving hpc'
  · rw [happended]
    exact h.appended_whole
  · rw [pending, here_of_ne hpc', hahead, ← List.append_assoc, hexact, happended, ← h.exact,
      pending, here_of_ne hpc, List.append_assoc]

theorem Sound.fill (h : Sound s) {count : Nat} (hstep : s.step (.fill count) = some t) :
    Sound t := by
  simp only [step, Option.ite_none_right_eq_some, Option.some.injEq] at hstep
  obtain ⟨⟨hpc, -, hpos, -, hle⟩, rfl⟩ := hstep
  have hopening : s.pc ≠ .openPath := by simp [hpc]
  have hunread := unread_fill s count
  refine h.congr rfl rfl rfl rfl rfl ?_ hopening hopening (fun hne => absurd hpc hne) ?_ ?_ ?_
  · have hst : s.stale = false := stale_eq_false.mpr (by omega)
    rw [hst]
    exact stale_eq_false.mpr hle
  · rintro (hw | hend)
    · left
      show Lines.Whole newline (s.buffer ++ ((s.files s.cur).drop s.offset).take count ++
        (s.files s.cur).drop (s.offset + count))
      rwa [hunread]
    · omega
  · intro hstat
    have hstat : s.pc = .statPath := hstat
    rw [hpc] at hstat
    cases hstat
  · show s.signalled ++ winLines (_ ++ _) = _
    rw [hunread]

/-- **A line**: signalled if it announces a win. -/
theorem Sound.line (h : Sound s) (hstep : s.step .line = some t) : Sound t := by
  simp only [step, Option.ite_none_right_eq_some] at hstep
  obtain ⟨hpc, hstep⟩ := hstep
  obtain ⟨⟨line, rest⟩, hsplit, rfl⟩ := Option.map_eq_some_iff.mp hstep
  have hopening : s.pc ≠ .openPath := by simp [hpc]
  refine h.congr rfl rfl rfl rfl rfl rfl hopening hopening ?_ ?_ ?_ ?_
  · exact fun hne => absurd hpc hne
  · exact fun hw => hw.imp_left (Lines.whole_of_splitFirst hsplit)
  · intro hstat
    have hstat : s.pc = .statPath := hstat
    rw [hpc] at hstat
    cases hstat
  · rw [winLines_line hsplit]
    show (if announcesWin line then s.signalled ++ [line] else s.signalled) ++
      winLines (rest ++ (s.files s.cur).drop s.offset) = _
    split
    · rw [List.append_assoc]
    · rfl

/-- **End of the file**: what is dropped is no complete line. -/
theorem Sound.eof (h : Sound s) (hstep : s.step .eof = some t) : Sound t := by
  simp only [step, Option.ite_none_right_eq_some, Option.some.injEq] at hstep
  obtain ⟨⟨hpc, hbuffer, hend⟩, rfl⟩ := hstep
  have hopening : s.pc ≠ .openPath := by simp [hpc]
  have hdrop : (s.files s.cur).drop s.offset = [] := List.drop_eq_nil_of_le hend
  refine h.congr rfl rfl rfl rfl rfl rfl hopening (by simp) (fun _ => rfl) ?_ ?_ ?_
  · intro _
    left
    show Lines.Whole newline ([] ++ (s.files s.cur).drop s.offset)
    rw [hdrop]
    exact Lines.whole_nil
  · intro _
    show winLines ([] ++ (s.files s.cur).drop s.offset) = []
    rw [hdrop]
    rfl
  · show s.signalled ++ winLines ([] ++ (s.files s.cur).drop s.offset) = _
    rw [unread, hdrop, List.append_nil, List.append_nil, winLines_of_not_mem hbuffer]
    rfl

/-- **A look at the path**: the watcher leaves a file in which nothing is left. -/
theorem Sound.stat (h : Sound s) (hstep : s.step .stat = some t) : Sound t := by
  simp only [step, Option.ite_none_right_eq_some, Option.some.injEq] at hstep
  obtain ⟨hpc, rfl⟩ := hstep
  have hopening : s.pc ≠ .openPath := by simp [hpc]
  have hbuffer : s.buffer = [] := h.buffer (by simp [hpc])
  by_cases hre : s.reopens = true
  · obtain ⟨inode, hpath⟩ : ∃ inode, s.path = some inode := by
      cases hp : s.path with
      | none => simp [reopens, hp] at hre
      | some inode => exact ⟨inode, rfl⟩
    have hcase : inode ≠ s.cur ∨ s.stale = true := by
      by_cases heq : inode = s.cur
      · right
        simpa [reopens, hpath, heq, stale] using hre
      · exact .inl heq
    have hopen : s.toOpen inode = true := by
      rcases hcase with hne | hstale
      · simp [toOpen, hne]
      · simp [toOpen, hstale]
    have hnothing : winLines s.unread = [] := by
      by_cases heq : inode = s.cur
      · rw [unread_of_stale (hcase.resolve_left fun hne => hne heq), hbuffer]
        rfl
      · exact h.left (.inl hpc) fun hp => heq (Option.some.inj (hpath.symm.trans hp))
    have hexact := h.exact
    rw [pending_of_toOpen hpath hopen, here_of_ne hopening, hnothing] at hexact
    rw [hre]
    exact .of_toOpen h.cur_lt hpath (h.path_lt inode hpath) (by simp [toOpen])
      (fun _ => hbuffer) (h.file_whole inode hpath hopen) (fun _ _ => hnothing) h.appended_whole
      hexact
  · rw [Bool.eq_false_iff.mpr hre]
    exact h.congr rfl rfl rfl rfl rfl rfl hopening (by simp) (fun _ => hbuffer) id (by simp) rfl

/-- **Reopening**: the file at the path is read from its start. -/
theorem Sound.reopen (h : Sound s) (hstep : s.step .reopen = some t) : Sound t := by
  simp only [step, Option.ite_none_right_eq_some] at hstep
  obtain ⟨hpc, hstep⟩ := hstep
  have hexact := h.exact
  cases hpath : s.path with
  | none =>
    rw [hpath] at hstep
    obtain rfl := Option.some.inj hstep
    have hnothing : winLines s.unread = [] := h.left (.inr hpc) (by simp [hpath])
    rw [pending_of_none hpath, here, if_pos hpc] at hexact
    refine .of_absent h.cur_lt rfl (fun _ => h.buffer (by simp [hpc])) (by simp)
      h.appended_whole ?_
    show s.signalled ++ winLines s.unread = _
    rw [hnothing]
    exact hexact
  | some inode =>
    rw [hpath] at hstep
    obtain rfl := Option.some.inj hstep
    have hopen : s.toOpen inode = true := by simp [toOpen, hpc]
    have hwhole := h.file_whole inode hpath hopen
    rw [pending_of_toOpen hpath hopen, here, if_pos hpc] at hexact
    exact .of_current (h.path_lt inode hpath) rfl (by simp [toOpen, stale])
      (fun hne => absurd rfl hne) (.inl hwhole) h.appended_whole hexact

/-- **Step lemma**: while the writer keeps out of the gaps, nothing is lost or repeated. -/
theorem Sound.step (h : Sound s) {label : LogLabel} (hok : s.KeepsOut label)
    (hstep : s.step label = some t) : Sound t := by
  cases label with
  | append bytes => exact h.append hok hstep
  | rename => exact h.rename hok hstep
  | create => exact h.create hstep
  | truncate size => exact h.truncate hok hstep
  | fill count => exact h.fill hstep
  | line => exact h.line hstep
  | eof => exact h.eof hstep
  | stat => exact h.stat hstep
  | reopen => exact h.reopen hstep
  | wake =>
    simp only [LogState.step, Option.ite_none_right_eq_some, Option.some.injEq] at hstep
    obtain ⟨hpc, rfl⟩ := hstep
    exact h.congr rfl rfl rfl rfl rfl rfl (by simp [hpc]) (by simp)
      (fun hne => absurd rfl hne) id (by simp) rfl

-- ════════════════════════════════════════════════════════════════════════
-- The watcher alone
-- ════════════════════════════════════════════════════════════════════════

/-- The watcher gets from `s` to `t` without a step of the writer. -/
def Alone (s t : LogState) : Prop :=
  (system.startingAt s).Reach (fun _ label => label.isWatcher = true) t

theorem Alone.refl (s : LogState) : Alone s s := .init rfl

theorem Alone.tail {u : LogState} (h : Alone s t) {label : LogLabel}
    (hwatcher : label.isWatcher = true) (hstep : t.step label = some u) : Alone s u :=
  Transition.System.Reach.step h hwatcher hstep

theorem Alone.trans {u : LogState} (h : Alone s t) (h' : Alone t u) : Alone s u := by
  induction h' with
  | init heq => exact heq ▸ h
  | step _ hwatcher hstep ih => exact ih.tail hwatcher hstep

/-- Without the writer nothing is appended, and the watcher keeps out of its own way. -/
theorem Sound.alone (hs : Sound s) (h : Alone s t) : Sound t ∧ t.appended = s.appended := by
  refine Transition.System.Reach.invariant (I := fun t => Sound t ∧ t.appended = s.appended)
    ?_ ?_ h
  · rintro _ rfl
    exact ⟨hs, rfl⟩
  · rintro t label u ⟨ht, happended⟩ hwatcher hstep
    have hok : t.KeepsOut label := by
      cases label with
      | append _ | rename | create | truncate _ => cases hwatcher
      | fill _ | line | eof | stat | reopen | wake => trivial
    exact ⟨ht.step hok hstep, (appended_of_isWatcher hwatcher hstep).trans happended⟩

/-- The watcher reads its file to the end. -/
theorem exists_atEnd (s : LogState) (hpc : s.pc = .reading) :
    ∃ t, Alone s t ∧ t.pc = .statPath ∧ t.unread = [] ∧ t.path = s.path ∧ t.cur = s.cur ∧
      t.files = s.files ∧ t.stale = s.stale := by
  -- each step moves a byte into the buffer or takes a line out of it
  generalize hm : 2 * ((s.files s.cur).length - s.offset) + s.buffer.length = m
  induction m using Nat.strong_induction_on generalizing s with
  | _ m ih =>
    have hgo : ∀ label u, label.isWatcher = true → s.step label = some u → u.pc = .reading →
        u.path = s.path → u.cur = s.cur → u.files = s.files → u.stale = s.stale →
        2 * ((u.files u.cur).length - u.offset) + u.buffer.length < m →
        ∃ t, Alone s t ∧ t.pc = .statPath ∧ t.unread = [] ∧ t.path = s.path ∧ t.cur = s.cur ∧
          t.files = s.files ∧ t.stale = s.stale := by
      intro label u hwatcher hstep hreading hpath hcur hfiles hstale hless
      obtain ⟨t, halone, hend, hunread, hpath', hcur', hfiles', hstale'⟩ := ih _ hless u hreading rfl
      exact ⟨t, ((Alone.refl s).tail hwatcher hstep).trans halone, hend, hunread,
        hpath'.trans hpath, hcur'.trans hcur, hfiles'.trans hfiles, hstale'.trans hstale⟩
    by_cases hline : newline ∈ s.buffer
    · obtain ⟨⟨line, rest⟩, hsplit⟩ : ∃ split, Lines.splitFirst newline s.buffer = some split := by
        refine Option.ne_none_iff_exists'.mp fun hnone => ?_
        exact Lines.splitFirst_eq_none.mp hnone hline
      obtain ⟨hbuffer, body, -, hbody⟩ := Lines.splitFirst_eq_some hsplit
      have hstep : s.step .line = some { s with
          buffer := rest
          signalled := if announcesWin line then s.signalled ++ [line] else s.signalled } := by
        simp [step, hpc, hsplit]
      refine hgo .line _ rfl hstep hpc rfl rfl rfl rfl ?_
      have hlen : rest.length < s.buffer.length := by
        rw [hbuffer, hbody]
        simp
        omega
      rw [← hm]
      exact Nat.add_lt_add_left hlen (2 * ((s.files s.cur).length - s.offset))
    · by_cases hend : (s.files s.cur).length ≤ s.offset
      · have hstep : s.step .eof = some { s with buffer := [], pc := .statPath } := by
          simp [step, hpc, hline, hend]
        refine ⟨_, (Alone.refl s).tail rfl hstep, rfl, ?_, rfl, rfl, rfl, rfl⟩
        exact List.drop_eq_nil_of_le hend
      · have hlt : s.offset < (s.files s.cur).length := Nat.not_le.mp hend
        have hstep : s.step (.fill 1) = some { s with
            buffer := s.buffer ++ ((s.files s.cur).drop s.offset).take 1
            offset := s.offset + 1 } := by
          have hle : s.offset + 1 ≤ (s.files s.cur).length := hlt
          simp [step, hpc, hline, hle]
        refine hgo (.fill 1) _ rfl hstep hpc rfl rfl rfl ?_ ?_
        · have hstale : s.stale = false := stale_eq_false.mpr hlt.le
          rw [hstale]
          exact stale_eq_false.mpr hlt
        · show 2 * ((s.files s.cur).length - (s.offset + 1)) +
            (s.buffer ++ ((s.files s.cur).drop s.offset).take 1).length < m
          rw [← hm, List.length_append, List.length_take, List.length_drop]
          omega

/-- Wherever it is, the watcher comes back to reading. -/
theorem exists_reading (s : LogState) : ∃ t, Alone s t ∧ t.pc = .reading := by
  have hsleeping : ∀ s : LogState, s.pc = .sleeping → ∃ t, Alone s t ∧ t.pc = .reading := by
    intro s hpc
    have hstep : s.step .wake = some { s with pc := .reading } := by simp [step, hpc]
    exact ⟨_, (Alone.refl s).tail rfl hstep, rfl⟩
  have hopening : ∀ s : LogState, s.pc = .openPath → ∃ t, Alone s t ∧ t.pc = .reading := by
    intro s hpc
    cases hpath : s.path with
    | none =>
      have hstep : s.step .reopen = some { s with pc := .sleeping } := by
        simp [step, hpc, hpath]
      obtain ⟨t, halone, ht⟩ := hsleeping { s with pc := .sleeping } rfl
      exact ⟨t, ((Alone.refl s).tail rfl hstep).trans halone, ht⟩
    | some inode =>
      have hstep : s.step .reopen =
          some { s with cur := inode, offset := 0, buffer := [], pc := .reading } := by
        simp [step, hpc, hpath]
      exact ⟨_, (Alone.refl s).tail rfl hstep, rfl⟩
  cases hpc : s.pc with
  | reading => exact ⟨s, .refl s, hpc⟩
  | sleeping => exact hsleeping s hpc
  | openPath => exact hopening s hpc
  | statPath =>
    have hstep : s.step .stat =
        some { s with pc := if s.reopens then .openPath else .sleeping } := by simp [step, hpc]
    by_cases hre : s.reopens = true
    · rw [if_pos hre] at hstep
      obtain ⟨t, halone, ht⟩ := hopening { s with pc := .openPath } rfl
      exact ⟨t, ((Alone.refl s).tail rfl hstep).trans halone, ht⟩
    · rw [if_neg hre] at hstep
      obtain ⟨t, halone, ht⟩ := hsleeping { s with pc := .sleeping } rfl
      exact ⟨t, ((Alone.refl s).tail rfl hstep).trans halone, ht⟩

/-- From the end of its file the watcher goes on to the end of the log. -/
theorem exists_pending_nil (s : LogState) (hpc : s.pc = .statPath) (hunread : s.unread = []) :
    ∃ t, Alone s t ∧ t.pending = [] := by
  have hne : s.pc ≠ .openPath := by simp [hpc]
  have hhere : s.here = [] := by
    rw [here_of_ne hne, hunread]
    rfl
  cases hpath : s.path with
  | none => exact ⟨s, .refl s, by rw [pending_of_none hpath, hhere]⟩
  | some inode =>
    by_cases hopen : s.toOpen inode = true
    · -- another file, or a truncated one: it is opened and read to its end
      have hre : s.reopens = true := by
        by_cases heq : inode = s.cur
        · subst heq
          have hstale : s.stale = true := by simpa [toOpen, hpc] using hopen
          have hlt : (s.files s.cur).length < s.offset := by simpa [stale] using hstale
          simp [reopens, hpath, hlt]
        · simp [reopens, hpath, heq]
      have hstat : s.step .stat = some { s with pc := .openPath } := by simp [step, hpc, hre]
      have hreopen : LogState.step { s with pc := .openPath } .reopen =
          some { s with cur := inode, offset := 0, buffer := [], pc := .reading } := by
        simp [step, hpath]
      obtain ⟨t, halone, hpc', hunread', hpath', hcur, -, hstale⟩ := exists_atEnd
        { s with cur := inode, offset := 0, buffer := [], pc := .reading } rfl
      refine ⟨t, (((Alone.refl s).tail rfl hstat).tail rfl hreopen).trans halone, ?_⟩
      have hcurrent : t.path = some t.cur := by rw [hpath', hcur]; exact hpath
      have hclosed : t.toOpen t.cur = false := by
        refine toOpen_eq_false.mpr ⟨rfl, hstale.trans ?_, by simp [hpc']⟩
        exact stale_eq_false.mpr (Nat.zero_le _)
      rw [pending_of_not_toOpen hcurrent hclosed, hunread']
      rfl
    · refine ⟨s, .refl s, ?_⟩
      rw [pending_of_not_toOpen hpath (Bool.eq_false_iff.mpr hopen), hunread]
      rfl

/-- **Progress**: left alone, the watcher signals everything that was appended. -/
theorem Sound.exists_drained (hs : Sound s) :
    ∃ t, Alone s t ∧ t.pending = [] ∧ t.signalled = winLines s.appended := by
  obtain ⟨t₁, h₁, hreading⟩ := exists_reading s
  obtain ⟨t₂, h₂, hpc, hunread, -⟩ := exists_atEnd t₁ hreading
  obtain ⟨t, h₃, hpending⟩ := exists_pending_nil t₂ hpc hunread
  have halone : Alone s t := (h₁.trans h₂).trans h₃
  obtain ⟨ht, happended⟩ := hs.alone halone
  have hexact := ht.exact
  rw [hpending, List.append_nil, happended] at hexact
  exact ⟨t, halone, hpending, hexact⟩

/-- **Exactly once**: in every run in which the writer keeps out of the gaps, the lines that were
signalled, followed by the ones that the watcher will come to, are the appended lines that announce
a win, in order; and left alone the watcher signals them all. -/
theorem signalledOnce_of_reach (h : system.Reach KeepsOut s) :
    s.signalled ++ s.pending = winLines s.appended ∧
      ∃ t, Alone s t ∧ t.pending = [] ∧ t.signalled = winLines s.appended := by
  have hs : Sound s :=
    h.invariant (fun _ h0 => sound_init h0) fun _ _ _ hs hok hstep => hs.step hok hstep
  exact ⟨hs.exact, hs.exists_drained⟩

/-- Whole lines are appended. -/
def WholeAppends (_ : LogState) : LogLabel → Prop
  | .append bytes => Lines.Whole newline bytes
  | _ => True

instance (s : LogState) (label : LogLabel) : Decidable (WholeAppends s label) :=
  match label with
  | .append bytes => inferInstanceAs (Decidable (Lines.Whole newline bytes))
  | .rename | .create | .truncate _ | .fill _ | .line | .eof | .stat | .reopen | .wake =>
    inferInstanceAs (Decidable True)

/-- A line that announces a win. -/
def wonLine : List UInt8 := electionText ++ [newline]

/-- One line before the rename and one after it; then the log is truncated and gets a third. -/
def rotateAndTruncate : List LogLabel :=
  [.append wonLine, .rename, .create, .append wonLine, .fill 25, .line, .eof, .stat, .reopen,
    .fill 20, .fill 5, .line, .truncate 0, .eof, .stat, .append wonLine]

/-- A line is appended after the watcher has found the end of the file, and the log is replaced
before the watcher looks at the path. -/
def appendInGap : List LogLabel := [.eof, .append wonLine, .rename, .create, .stat, .reopen]

/-- Two of the three lines are signalled, and the third will be. -/
theorem signalledOnce_rotateAndTruncate : ∃ s, system.Reach KeepsOut s ∧
    s.signalled = [wonLine, wonLine] ∧ s.pending = [wonLine] ∧
    ∃ t, Alone s t ∧ t.pending = [] ∧ t.signalled = winLines s.appended := by
  have hfinal : (system.execGuarded KeepsOut started rotateAndTruncate).any (fun s => decide
      (s.signalled = [wonLine, wonLine] ∧ s.pending = [wonLine])) = true := by decide +kernel
  obtain ⟨s, hrun, hs⟩ := (Option.any_eq_true _ _).mp hfinal
  have hreach := (Transition.System.Reach.init init_started).execGuarded hrun
  obtain ⟨hsignalled, hpending⟩ := of_decide_eq_true hs
  exact ⟨s, hreach, hsignalled, hpending, (signalledOnce_of_reach hreach).2⟩

/-- The watcher has gone over to the new file, and the line in the old one is lost. -/
theorem appendInGap_not_signalled : ∃ s, system.Reach WholeAppends s ∧
    winLines s.appended = [wonLine] ∧ s.signalled = [] ∧ s.path = some s.cur ∧ s.unread = [] := by
  have hfinal : (system.execGuarded WholeAppends started appendInGap).any (fun s => decide
      (winLines s.appended = [wonLine] ∧ s.signalled = [] ∧ s.path = some s.cur ∧
        s.unread = [])) = true := by decide +kernel
  obtain ⟨s, hrun, hs⟩ := (Option.any_eq_true _ _).mp hfinal
  exact ⟨s, (Transition.System.Reach.init init_started).execGuarded hrun, of_decide_eq_true hs⟩

end LogState

end OpenModel.Curio
