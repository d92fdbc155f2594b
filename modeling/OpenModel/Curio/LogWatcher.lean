import OpenModel.Lib.Lines
import OpenModel.Lib.Transition

/-!
# The watcher of the Curio log

`LogWatcher.Watch` tails the log file and sends a signal for every line that announces a won
election. The file at the path may grow, be renamed and replaced, or be truncated between any two
steps of the watcher: a read of the open file, a line taken out of the reader's buffer, the end of
the file, the look at the path, the reopening.

`ReadString` returns what it has together with the end of the file, and the loop drops it.

## Main results

- `LogState.unread_fill`, `LogState.unread_appendTo`: what the watcher has yet to read
- `LogState.winLines_line`: a line that is taken out is signalled if it announces a win
-/

namespace OpenModel.Curio

/-- `'\n'`. -/
def newline : UInt8 := 10

/-- The text that the watcher looks for. -/
def electionText : List UInt8 :=
  "WinPostTask won election".toList.map fun c => UInt8.ofNat c.toNat

/-- `strings.Contains` with the text. -/
def announcesWin (line : List UInt8) : Bool := decide (electionText <:+: line)

/-- The complete lines that announce a win. -/
def winLines (bytes : List UInt8) : List (List UInt8) :=
  (Lines.completeLines newline bytes).filter announcesWin

/-- Where the goroutine of `Watch` is. -/
inductive WatchPc
  | reading
  | statPath
  | openPath
  | sleeping
  deriving DecidableEq, Repr

/-- The log files and the watcher. A file is known by its inode; `nextInode` is the one that the
next file gets. `appended` records all bytes that were written after the watcher started. -/
structure LogState where
  files : Nat → List UInt8
  path : Option Nat
  nextInode : Nat
  appended : List UInt8
  cur : Nat
  offset : Nat
  buffer : List UInt8
  pc : WatchPc
  signalled : List (List UInt8)

/-- One step of a writer or of the watcher. -/
inductive LogLabel
  | append (bytes : List UInt8)
  | rename
  | create
  | truncate (size : Nat)
  | fill (count : Nat)
  | line
  | eof
  | stat
  | reopen
  | wake
  deriving DecidableEq, Repr

/-- The steps of the watcher. -/
def LogLabel.isWatcher : LogLabel → Bool
  | .append _ => false
  | .rename => false
  | .create => false
  | .truncate _ => false
  | _ => true

namespace LogState

/-- The file that the watcher has open is shorter than its offset. -/
def stale (s : LogState) : Bool := decide ((s.files s.cur).length < s.offset)

/-- What the watcher has yet to read of the file that it has open. -/
def unread (s : LogState) : List UInt8 := s.buffer ++ (s.files s.cur).drop s.offset

/-- `reopenIfRotated`, up to the reopening: another inode, or a file shorter than the offset. -/
def reopens (s : LogState) : Bool :=
  match s.path with
  | none => false
  | some inode => inode != s.cur || decide ((s.files inode).length < s.offset)

/-- A file gets other contents. -/
def setFile (s : LogState) (inode : Nat) (bytes : List UInt8) : LogState :=
  { s with files := Function.update s.files inode bytes }

/-- Bytes are appended to a file. -/
def appendTo (s : LogState) (inode : Nat) (bytes : List UInt8) : LogState :=
  { s.setFile inode (s.files inode ++ bytes) with appended := s.appended ++ bytes }

/-- One step. The reader's buffer holds 4096 bytes. The channel is never full. -/
def step (s : LogState) : LogLabel → Option LogState
  | .append bytes => s.path.map fun inode => s.appendTo inode bytes
  | .rename => s.path.map fun _ => { s with path := none }
  | .create =>
    if s.path.isNone then
      some { s.setFile s.nextInode [] with
        path := some s.nextInode
        nextInode := s.nextInode + 1 }
    else none
  | .truncate size => s.path.map fun inode => s.setFile inode ((s.files inode).take size)
  | .fill count =>
    if s.pc = .reading ∧ newline ∉ s.buffer ∧ 0 < count ∧ count ≤ 4096 ∧
        s.offset + count ≤ (s.files s.cur).length then
      some { s with
        buffer := s.buffer ++ ((s.files s.cur).drop s.offset).take count
        offset := s.offset + count }
    else none
  | .line =>
    if s.pc = .reading then
      (Lines.splitFirst newline s.buffer).map fun (line, rest) =>
        { s with
          buffer := rest
          signalled := if announcesWin line then s.signalled ++ [line] else s.signalled }
    else none
  | .eof =>
    if s.pc = .reading ∧ newline ∉ s.buffer ∧ (s.files s.cur).length ≤ s.offset then
      -- the bytes that come with the error are dropped
      some { s with buffer := [], pc := .statPath }
    else none
  | .stat =>
    if s.pc = .statPath then
      some { s with pc := if s.reopens then .openPath else .sleeping }
    else none
  | .reopen =>
    if s.pc = .openPath then
      match s.path with
      | none => some { s with pc := .sleeping }
      | some inode => some { s with cur := inode, offset := 0, buffer := [], pc := .reading }
    else none
  | .wake => if s.pc = .sleeping then some { s with pc := .reading } else none

/-- The watcher has opened the file and moved to its end. -/
def system : Transition.System LogState LogLabel where
  init s := s.path = some s.cur ∧ s.cur < s.nextInode ∧ s.appended = [] ∧
    s.offset = (s.files s.cur).length ∧ s.buffer = [] ∧ s.pc = .reading ∧ s.signalled = []
  step := step

/-- A watcher of a new log. -/
def started : LogState where
  files := fun _ => []
  path := some 0
  nextInode := 1
  appended := []
  cur := 0
  offset := 0
  buffer := []
  pc := .reading
  signalled := []

theorem init_started : system.init started := ⟨rfl, by decide, rfl, rfl, rfl, rfl, rfl⟩

variable {s : LogState} {line rest : List UInt8}

theorem winLines_append {xs : List UInt8} (h : Lines.Whole newline xs) (ys : List UInt8) :
    winLines (xs ++ ys) = winLines xs ++ winLines ys := by
  rw [winLines, Lines.completeLines_append_of_whole h, List.filter_append]
  rfl

theorem winLines_of_not_mem {xs : List UInt8} (h : newline ∉ xs) : winLines xs = [] := by
  rw [winLines, Lines.completeLines_of_not_mem h, List.filter_nil]

/-- Dropping the beginning announces no new win. -/
theorem winLines_drop {xs : List UInt8} (h : winLines xs = []) (n : Nat) :
    winLines (xs.drop n) = [] := by
  rw [winLines, List.filter_eq_nil_iff] at h ⊢
  intro piece hpiece hwin
  obtain ⟨whole, hmem, hsuffix⟩ := Lines.exists_line_of_drop hpiece
  refine h whole hmem ?_
  rw [announcesWin, decide_eq_true_eq] at hwin ⊢
  exact hwin.trans hsuffix.isInfix

theorem setFile_files_self {inode : Nat} {bytes : List UInt8} :
    (s.setFile inode bytes).files inode = bytes := by
  simp [setFile]

theorem setFile_files_of_ne {inode other : Nat} {bytes : List UInt8} (h : other ≠ inode) :
    (s.setFile inode bytes).files other = s.files other := by
  simp [setFile, h]

theorem unread_setFile_self (s : LogState) (bytes : List UInt8) :
    (s.setFile s.cur bytes).unread = s.buffer ++ bytes.drop s.offset := by
  show s.buffer ++ List.drop s.offset ((s.setFile s.cur bytes).files s.cur) = _
  rw [setFile_files_self]

theorem unread_setFile_of_ne {inode : Nat} (h : s.cur ≠ inode) (bytes : List UInt8) :
    (s.setFile inode bytes).unread = s.unread := by
  show s.buffer ++ List.drop s.offset ((s.setFile inode bytes).files s.cur) = _
  rw [setFile_files_of_ne h]
  rfl

/-- What is appended to the open file has yet to be read. -/
theorem unread_appendTo (h : s.offset ≤ (s.files s.cur).length) (bytes : List UInt8) :
    (s.appendTo s.cur bytes).unread = s.unread ++ bytes := by
  show (s.setFile s.cur (s.files s.cur ++ bytes)).unread = _
  rw [unread_setFile_self, List.drop_append_of_le_length h, ← List.append_assoc]
  rfl

/-- A read moves bytes from the file to the buffer. -/
theorem unread_fill (s : LogState) (count : Nat) :
    s.buffer ++ ((s.files s.cur).drop s.offset).take count ++
      (s.files s.cur).drop (s.offset + count) = s.unread := by
  rw [List.append_assoc, ← List.drop_drop, List.take_append_drop]
  rfl

/-- **One line**: taken out of the buffer, it is signalled if it announces a win. -/
theorem winLines_line (h : Lines.splitFirst newline s.buffer = some (line, rest)) :
    winLines s.unread =
      (if announcesWin line then [line] else []) ++
        winLines (rest ++ (s.files s.cur).drop s.offset) := by
  rw [winLines, unread, Lines.completeLines_of_splitFirst h, List.filter_cons]
  split <;> rfl

/-- The watcher appends nothing. -/
theorem appended_of_isWatcher {t : LogState} {label : LogLabel} (hw : label.isWatcher = true)
    (h : s.step label = some t) : t.appended = s.appended := by
  cases label with
  | append _ | rename | create | truncate _ => cases hw
  | fill _ | eof | stat | wake =>
    simp only [step, Option.ite_none_right_eq_some, Option.some.injEq] at h
    rw [← h.2]
  | line =>
    simp only [step, Option.ite_none_right_eq_some] at h
    obtain ⟨⟨line, rest⟩, -, rfl⟩ := Option.map_eq_some_iff.mp h.2
    rfl
  | reopen =>
    simp only [step, Option.ite_none_right_eq_some] at h
    obtain ⟨-, h⟩ := h
    cases hpath : s.path with
    | none =>
      rw [hpath] at h
      rw [← Option.some.inj h]
    | some inode =>
      rw [hpath] at h
      rw [← Option.some.inj h]

end LogState

end OpenModel.Curio
