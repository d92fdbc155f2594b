import OpenModel.FocBridge.DownloadModel
import Mathlib.Logic.Function.Basic

/-!
# The write stream of a download

The handler of `POST /download-model` once more, with the write stream that it works on. The
stream opens its file while the handler goes on; what it is handed it writes later, and it
holds the body back when too much is queued; an error of the stream is an event, which ends
the process when nobody listens. `pipeline` listens from the first part on, and what it has
attached stays.

A file that is removed while it is open lives on without a path, so files have numbers.

## Main results

- `Handler.stepped_of_step`: what a step does
- `Handler.download_of_step`: the handler moves as the handler without the stream does
- `Handler.Streams.step`, `Handler.Tracks.step`: what was received, hashed, handed over and
  written
-/

namespace OpenModel.FocBridge

-- ════════════════════════════════════════════════════════════════════════
-- Files
-- ════════════════════════════════════════════════════════════════════════

/-- The files of the shared volume: the number and the content of what is at a location. -/
structure Disk where
  file : Location → Option (Nat × Bytes)
  /-- the number of the next new file -/
  next : Nat
  lt_next : ∀ l number content, file l = some (number, content) → number < next
  inj : ∀ l l' number content content', file l = some (number, content) →
    file l' = some (number, content') → l = l'

namespace Disk

variable {disk : Disk} {l l' : Location} {number offset : Nat} {bytes content : Bytes}

/-- The file with this number, which is at no other location, with a new content. -/
def put (disk : Disk) (l : Location) (number : Nat) (content : Bytes)
    (h : ∀ l' content', disk.file l' = some (number, content') → l' = l) : Disk where
  file := Function.update disk.file l (some (number, content))
  next := max disk.next (number + 1)
  lt_next l' number' content' hfile := by
    by_cases hl : l' = l
    · rw [hl, Function.update_self] at hfile
      cases hfile
      omega
    · rw [Function.update_of_ne hl] at hfile
      have := disk.lt_next l' number' content' hfile
      omega
  inj l₁ l₂ number' content₁ content₂ h₁ h₂ := by
    by_cases hl₁ : l₁ = l
    · by_cases hl₂ : l₂ = l
      · rw [hl₁, hl₂]
      · rw [hl₁, Function.update_self] at h₁
        rw [Function.update_of_ne hl₂] at h₂
        cases h₁
        exact hl₁.trans (h l₂ content₂ h₂).symm
    · rw [Function.update_of_ne hl₁] at h₁
      by_cases hl₂ : l₂ = l
      · rw [hl₂, Function.update_self] at h₂
        cases h₂
        exact (h l₁ content₁ h₁).trans hl₂.symm
      · rw [Function.update_of_ne hl₂] at h₂
        exact disk.inj l₁ l₂ number' content₁ content₂ h₁ h₂

/-- Create the file, or truncate the one that is there. -/
def openFile (disk : Disk) (l : Location) : Nat × Disk :=
  match hfile : disk.file l with
  | some (number, content) =>
    (number, disk.put l number [] fun l' content' h => disk.inj l' l number content' content h hfile)
  | none =>
    (disk.next, disk.put l disk.next [] fun l' content' h =>
      absurd (disk.lt_next l' disk.next content' h) (Nat.lt_irrefl _))

/-- What a write at an offset makes of the content; a gap in front of it reads as zeros. -/
def overwrite (content : Bytes) (offset : Nat) (bytes : Bytes) : Bytes :=
  (content ++ List.replicate (offset - content.length) 0).take offset ++ bytes ++
    content.drop (offset + bytes.length)

/-- A write to an open file, which nobody sees when it has no path any more. -/
def writeAt (disk : Disk) (l : Location) (number offset : Nat) (bytes : Bytes) : Disk :=
  match hfile : disk.file l with
  | some (number', content) =>
    if number' = number then
      disk.put l number' (overwrite content offset bytes) fun l' content' h =>
        disk.inj l' l number' content' content h hfile
    else disk
  | none => disk

def unlink (disk : Disk) (l : Location) : Disk where
  file := Function.update disk.file l none
  next := disk.next
  lt_next l' number content h := by
    by_cases hl : l' = l
    · rw [hl, Function.update_self] at h
      cases h
    · rw [Function.update_of_ne hl] at h
      exact disk.lt_next l' number content h
  inj l₁ l₂ number content₁ content₂ h₁ h₂ := by
    by_cases hl₁ : l₁ = l
    · rw [hl₁, Function.update_self] at h₁
      cases h₁
    · by_cases hl₂ : l₂ = l
      · rw [hl₂, Function.update_self] at h₂
        cases h₂
      · rw [Function.update_of_ne hl₁] at h₁
        rw [Function.update_of_ne hl₂] at h₂
        exact disk.inj l₁ l₂ number content₁ content₂ h₁ h₂

theorem put_self {h : ∀ l' content', disk.file l' = some (number, content') → l' = l} :
    (disk.put l number content h).file l = some (number, content) := Function.update_self _ _ _

theorem put_of_ne {h : ∀ l' content', disk.file l' = some (number, content') → l' = l}
    (hl : l' ≠ l) : (disk.put l number content h).file l' = disk.file l' :=
  Function.update_of_ne hl _ _

theorem unlink_of_ne (h : l' ≠ l) : (disk.unlink l).file l' = disk.file l' :=
  Function.update_of_ne h _ _

theorem unlink_self : (disk.unlink l).file l = none := Function.update_self _ _ _

theorem overwrite_length (content bytes : Bytes) :
    overwrite content content.length bytes = content ++ bytes := by
  simp [overwrite]

theorem openFile_of_ne (h : l' ≠ l) : (disk.openFile l).2.file l' = disk.file l' := by
  unfold openFile
  split
  · dsimp only
    exact put_of_ne h
  · dsimp only
    exact put_of_ne h

theorem openFile_self : (disk.openFile l).2.file l = some ((disk.openFile l).1, []) := by
  unfold openFile
  split
  · dsimp only
    exact put_self
  · dsimp only
    exact put_self

/-- The number is that of the file that was there, or a new one. -/
theorem openFile_number : (∃ content, disk.file l = some ((disk.openFile l).1, content)) ∨
    disk.next ≤ (disk.openFile l).1 := by
  unfold openFile
  split
  · next number content hfile => exact .inl ⟨content, hfile⟩
  · exact .inr le_rfl

theorem le_next_openFile : disk.next ≤ (disk.openFile l).2.next := by
  unfold openFile
  split
  · exact le_max_left _ _
  · exact le_max_left _ _

theorem writeAt_of_ne (h : l' ≠ l) :
    (disk.writeAt l number offset bytes).file l' = disk.file l' := by
  unfold writeAt
  split
  · split_ifs
    · exact put_of_ne h
    · rfl
  · rfl

/-- A file that is open and at its path is appended to. -/
theorem writeAt_append (h : disk.file l = some (number, content)) :
    (disk.writeAt l number content.length bytes).file l = some (number, content ++ bytes) := by
  unfold writeAt
  split
  · next number' content' hfile =>
    cases hfile.symm.trans h
    rw [if_pos rfl, ← overwrite_length]
    exact put_self
  · next hfile => cases hfile.symm.trans h

theorem writeAt_of_gone (h : ∀ content, disk.file l ≠ some (number, content)) :
    disk.writeAt l number offset bytes = disk := by
  unfold writeAt
  split
  · next number' content hfile =>
    rw [if_neg]
    rintro rfl
    exact h content hfile
  · rfl

theorem openFile_numbers {number' : Nat} (h : (disk.openFile l).2.file l' = some (number', content)) :
    (∃ content', disk.file l' = some (number', content')) ∨ disk.next ≤ number' := by
  by_cases hl : l' = l
  · subst hl
    rw [openFile_self] at h
    cases h
    exact openFile_number
  · rw [openFile_of_ne hl] at h
    exact .inl ⟨content, h⟩

theorem writeAt_numbers {number' : Nat}
    (h : (disk.writeAt l number offset bytes).file l' = some (number', content)) :
    ∃ content', disk.file l' = some (number', content') := by
  unfold writeAt at h
  split at h
  · next number₀ content₀ hfile =>
    split_ifs at h
    · by_cases hl : l' = l
      · subst hl
        rw [put_self] at h
        cases h
        exact ⟨content₀, hfile⟩
      · rw [put_of_ne hl] at h
        exact ⟨content, h⟩
    · exact ⟨content, h⟩
  · exact ⟨content, h⟩

theorem unlink_numbers {number' : Nat} (h : (disk.unlink l).file l' = some (number', content)) :
    disk.file l' = some (number', content) := by
  by_cases hl : l' = l
  · rw [hl, unlink_self] at h
    cases h
  · rwa [unlink_of_ne hl] at h

theorem le_next_writeAt : disk.next ≤ (disk.writeAt l number offset bytes).next := by
  unfold writeAt
  split
  · split_ifs
    · exact le_max_left _ _
    · exact le_rfl
  · exact le_rfl

end Disk

-- ════════════════════════════════════════════════════════════════════════
-- The handler
-- ════════════════════════════════════════════════════════════════════════

/-- What the bridge answers to a download that began. -/
inductive BridgeResponse
  | downloaded (path : Location) (sizeBytes parts : Nat) (sha256 : String) (verified : Bool)
  | mismatch (error expected computed : String)
  | failed (error : String)
  deriving DecidableEq, Repr

def BridgeResponse.status : BridgeResponse → Nat
  | downloaded _ _ _ _ _ => 200
  | mismatch _ _ _ => 422
  | failed _ => 500

theorem BridgeResponse.status_failed {error : String} : (failed error).status ≠ 200 := by
  show (500 : Nat) ≠ 200
  decide

theorem BridgeResponse.status_mismatch {error expected computed : String} :
    (mismatch error expected computed).status ≠ 200 := by
  show (422 : Nat) ≠ 200
  decide

/-- Where the handler is. -/
inductive BridgePc
  /-- creating the parent directory -/
  | mkdir
  | fetching (part : Nat) (fromSecondary : Bool)
  /-- in the pipeline from the body to the write stream -/
  | streaming (part : Nat) (fromSecondary : Bool)
  /-- awaiting `'finish'` -/
  | finishing
  | stat
  /-- removing the file, then the response -/
  | unlinking (response : BridgeResponse)
  | responded (response : BridgeResponse)
  deriving DecidableEq, Repr

inductive StreamPhase
  | notCreated
  | opening
  | opened (number : Nat)
  | closed (number : Nat)
  | errored
  deriving DecidableEq, Repr

/-- A request that was accepted. -/
structure Handler where
  pieceCids : List String
  outPath : Location
  sha256 : Option String
  pc : BridgePc := .mkdir
  /-- what the hasher was updated with -/
  hashed : Bytes := []
  phase : StreamPhase := .notCreated
  /-- what the stream was handed and has not written -/
  queued : Bytes := []
  /-- what it has written, `bytesWritten` of them -/
  written : Bytes := []
  /-- the body waits for `'drain'` -/
  needDrain : Bool := false
  /-- the stream has a listener for `'error'` -/
  listening : Bool := false
  /-- the bodies that have ended, each in its chunks -/
  bodies : List (List Bytes) := []
  /-- the chunks of the body that is streaming -/
  body : List Bytes := []
  deriving DecidableEq, Repr

inductive BridgeEvent
  /-- what the handler awaits is done -/
  | go
  /-- it throws -/
  | fails (message : String)
  /-- the storage provider answers -/
  | answers (status : Nat)
  | chunk (bytes : Bytes)
  | bodyEnds
  /-- the file of the stream is open -/
  | opened
  /-- the stream has written so many bytes -/
  | flush (count : Nat)
  /-- the stream emits `'error'` -/
  | streamError
  deriving DecidableEq, Repr

/-- The write buffer of a file stream. -/
def highWaterMark : Nat := 16384

/-- `resp.ok` -/
def okStatus (status : Nat) : Bool := 200 ≤ status && status ≤ 299

namespace Handler

/-- The response was sent. -/
def answered (h : Handler) : Bool :=
  match h.pc with
  | .responded _ => true
  | _ => false

/-- The `catch`. -/
def failed (h : Handler) (message : String) : Handler :=
  { h with pc := .unlinking (.failed message) }

/-- A response in `fetchPart`. The stream that is destroyed for a bad one still opens its file
and writes what is on its way. -/
def respond (h : Handler) (part : Nat) (fromSecondary : Bool) (status : Nat) : Handler :=
  if okStatus status then { h with pc := .streaming part fromSecondary, listening := true }
  else if fromSecondary then
    h.failed ("SP returned " ++ toString status ++ " for part " ++ toString (part + 1) ++ " (" ++
      h.pieceCids.getD part "" ++ ")")
  else { h with pc := .fetching part true }

/-- A chunk goes through the `hashTap` into the stream. -/
def tap (h : Handler) (bytes : Bytes) : Handler :=
  { h with
    hashed := h.hashed ++ bytes
    queued := h.queued ++ bytes
    needDrain := decide (highWaterMark ≤ (h.queued ++ bytes).length)
    body := h.body ++ [bytes] }

/-- A part has ended. -/
def endPart (h : Handler) (app : App) (part : Nat) : Handler :=
  let h := { h with bodies := h.bodies ++ [h.body], body := [] }
  if app.maxTotalBytes < h.written.length then
    h.failed ("download exceeded max size (" ++ toString app.maxTotalBytes ++ " bytes)")
  else if part + 1 < h.pieceCids.length then { h with pc := .fetching (part + 1) false }
  else { h with pc := .finishing }

/-- All has been written: compare the digest. -/
def verify (h : Handler) (digest : Bytes → String) (size : Nat) : Handler :=
  if h.sha256.any fun s => digest h.hashed ≠ lower s then
    { h with
      pc := .unlinking (.mismatch
        "sha256 mismatch: downloaded weights do NOT match the pinned digest (file deleted)"
        (lower (h.sha256.getD "")) (digest h.hashed)) }
  else
    { h with
      pc := .responded (.downloaded h.outPath size h.pieceCids.length (digest h.hashed)
        h.sha256.isSome) }

/-- The stream has written so many bytes; it asks for more once nothing is queued. -/
def flush (h : Handler) (count : Nat) : Handler :=
  { h with
    queued := h.queued.drop count
    written := h.written ++ h.queued.take count
    needDrain := h.needDrain && !(h.queued.drop count).isEmpty }

/-- The stream takes chunks. -/
def takes (h : Handler) : Bool := h.phase != .errored && !h.needDrain

/-- What the handler awaits is done. -/
def go (h : Handler) (digest : Bytes → String) (disk : Disk) : Option (Handler × Disk) :=
  match h.pc with
  | .mkdir => some ({ h with pc := .fetching 0 false, phase := .opening }, disk)
  | .finishing =>
    match h.phase with
    | .opened file =>
      if h.queued = [] then some ({ h with pc := .stat, phase := .closed file }, disk) else none
    | _ => none
  | .stat =>
    match disk.file h.outPath with
    | some (_, content) => some (h.verify digest content.length, disk)
    | none => none
  | .unlinking response => some ({ h with pc := .responded response }, disk.unlink h.outPath)
  | _ => none

/-- One step of the handler or its stream. -/
def step (digest : Bytes → String) (app : App) (h : Handler) (disk : Disk) :
    BridgeEvent → Option (Handler × Disk)
  | .go => h.go digest disk
  | .fails message =>
    match h.pc with
    | .fetching part false => some ({ h with pc := .fetching part true }, disk)
    | .mkdir | .fetching _ true | .streaming _ _ | .stat => some (h.failed message, disk)
    | .unlinking response => some ({ h with pc := .responded response }, disk)
    | _ => none
  | .answers status =>
    match h.pc with
    | .fetching part fromSecondary => some (h.respond part fromSecondary status, disk)
    | _ => none
  | .chunk bytes =>
    match h.pc with
    | .streaming _ _ => if h.takes then some (h.tap bytes, disk) else none
    | _ => none
  | .bodyEnds =>
    match h.pc with
    | .streaming part _ => if h.takes then some (h.endPart app part, disk) else none
    | _ => none
  | .opened =>
    match h.phase with
    | .opening =>
      let (file, disk) := disk.openFile h.outPath
      some ({ h with phase := .opened file }, disk)
    | _ => none
  | .flush count =>
    match h.phase with
    | .opened file =>
      if 0 < count ∧ h.queued ≠ [] then
        some (h.flush count,
          disk.writeAt h.outPath file h.written.length (h.queued.take count))
      else none
    | _ => none
  | .streamError =>
    match h.phase with
    | .opening => some ({ h with phase := .errored }, disk)
    | .opened _ => if h.queued ≠ [] then some ({ h with phase := .errored }, disk) else none
    | _ => none

variable {digest : Bytes → String} {app : App} {h h' : Handler} {disk disk' : Disk}
  {ev : BridgeEvent}

-- ════════════════════════════════════════════════════════════════════════
-- What a step does
-- ════════════════════════════════════════════════════════════════════════

/-- What a step of the handler or its stream can do. -/
inductive Stepped (digest : Bytes → String) (app : App) (h : Handler) (disk : Disk) :
    BridgeEvent → Handler → Disk → Prop
  | creates (hpc : h.pc = .mkdir) :
    Stepped digest app h disk .go { h with pc := .fetching 0 false, phase := .opening } disk
  | retries {part : Nat} {ev : BridgeEvent} (hpc : h.pc = .fetching part false)
    (hev : (∃ message, ev = .fails message) ∨ ∃ status, okStatus status = false ∧ ev = .answers status) :
    Stepped digest app h disk ev { h with pc := .fetching part true } disk
  | streams {part status : Nat} {fromSecondary : Bool} (hpc : h.pc = .fetching part fromSecondary)
    (hok : okStatus status) :
    Stepped digest app h disk (.answers status)
      { h with pc := .streaming part fromSecondary, listening := true } disk
  | refused {part status : Nat} {message : String} (hpc : h.pc = .fetching part true)
    (hok : okStatus status = false) :
    Stepped digest app h disk (.answers status) (h.failed message) disk
  | throws {message : String} (hpc : h.pc = .mkdir ∨ (∃ part, h.pc = .fetching part true) ∨
      (∃ part fromSecondary, h.pc = .streaming part fromSecondary) ∨ h.pc = .stat) :
    Stepped digest app h disk (.fails message) (h.failed message) disk
  | taps {part : Nat} {fromSecondary : Bool} {bytes : Bytes}
    (hpc : h.pc = .streaming part fromSecondary) (htakes : h.takes) :
    Stepped digest app h disk (.chunk bytes) (h.tap bytes) disk
  | endsPart {part : Nat} {fromSecondary : Bool} (hpc : h.pc = .streaming part fromSecondary)
    (htakes : h.takes) : Stepped digest app h disk .bodyEnds (h.endPart app part) disk
  | finishes {file : Nat} (hpc : h.pc = .finishing) (hphase : h.phase = .opened file)
    (hqueued : h.queued = []) :
    Stepped digest app h disk .go { h with pc := .stat, phase := .closed file } disk
  | verifies {file : Nat} {content : Bytes} (hpc : h.pc = .stat)
    (hfile : disk.file h.outPath = some (file, content)) :
    Stepped digest app h disk .go (h.verify digest content.length) disk
  | unlinks {response : BridgeResponse} (hpc : h.pc = .unlinking response) :
    Stepped digest app h disk .go { h with pc := .responded response } (disk.unlink h.outPath)
  | keeps {response : BridgeResponse} {message : String} (hpc : h.pc = .unlinking response) :
    Stepped digest app h disk (.fails message) { h with pc := .responded response } disk
  | opens (hphase : h.phase = .opening) :
    Stepped digest app h disk .opened { h with phase := .opened (disk.openFile h.outPath).1 }
      (disk.openFile h.outPath).2
  | flushes {file count : Nat} (hphase : h.phase = .opened file) (hcount : 0 < count)
    (hqueued : h.queued ≠ []) :
    Stepped digest app h disk (.flush count) (h.flush count)
      (disk.writeAt h.outPath file h.written.length (h.queued.take count))
  | errs (hphase : h.phase = .opening ∨ ∃ file, h.phase = .opened file ∧ h.queued ≠ []) :
    Stepped digest app h disk .streamError { h with phase := .errored } disk

theorem stepped_go (hstep : h.go digest disk = some (h', disk')) :
    Stepped digest app h disk .go h' disk' := by
  unfold go at hstep
  split at hstep
  · next hpc =>
    cases hstep
    exact .creates hpc
  · next hpc =>
    split at hstep
    · next file hphase =>
      obtain ⟨hqueued, hstep⟩ := Option.ite_none_right_eq_some.mp hstep
      cases hstep
      exact .finishes hpc hphase hqueued
    · cases hstep
  · next hpc =>
    split at hstep
    · next file content hfile =>
      cases hstep
      exact .verifies hpc hfile
    · cases hstep
  · next response hpc =>
    cases hstep
    exact .unlinks hpc
  · cases hstep

theorem stepped_respond {part status : Nat} {fromSecondary : Bool}
    (hpc : h.pc = .fetching part fromSecondary) :
    Stepped digest app h disk (.answers status) (h.respond part fromSecondary status) disk := by
  unfold respond
  split_ifs with hok hsecondary
  · exact .streams hpc hok
  · exact .refused (hsecondary ▸ hpc) (by simpa using hok)
  · obtain rfl : fromSecondary = false := by simpa using hsecondary
    exact .retries hpc (.inr ⟨status, by simpa using hok, rfl⟩)

theorem stepped_fails {message : String}
    (hstep : h.step digest app disk (.fails message) = some (h', disk')) :
    Stepped digest app h disk (.fails message) h' disk' := by
  simp only [step] at hstep
  split at hstep
  · next part hpc =>
    cases hstep
    exact .retries hpc (.inl ⟨message, rfl⟩)
  · next hpc =>
    cases hstep
    exact .throws (.inl hpc)
  · next part hpc =>
    cases hstep
    exact .throws (.inr (.inl ⟨part, hpc⟩))
  · next part fromSecondary hpc =>
    cases hstep
    exact .throws (.inr (.inr (.inl ⟨part, fromSecondary, hpc⟩)))
  · next hpc =>
    cases hstep
    exact .throws (.inr (.inr (.inr hpc)))
  · next response hpc =>
    cases hstep
    exact .keeps hpc
  · cases hstep

theorem stepped_of_step (hstep : h.step digest app disk ev = some (h', disk')) :
    Stepped digest app h disk ev h' disk' := by
  cases ev with
  | go => exact stepped_go hstep
  | fails message => exact stepped_fails hstep
  | answers status =>
    simp only [step] at hstep
    split at hstep
    · next part fromSecondary hpc =>
      cases hstep
      exact stepped_respond hpc
    · cases hstep
  | chunk bytes =>
    simp only [step] at hstep
    split at hstep
    · next part fromSecondary hpc =>
      obtain ⟨htakes, hstep⟩ := Option.ite_none_right_eq_some.mp hstep
      cases hstep
      exact .taps hpc htakes
    · cases hstep
  | bodyEnds =>
    simp only [step] at hstep
    split at hstep
    · next part fromSecondary hpc =>
      obtain ⟨htakes, hstep⟩ := Option.ite_none_right_eq_some.mp hstep
      cases hstep
      exact .endsPart hpc htakes
    · cases hstep
  | opened =>
    simp only [step] at hstep
    split at hstep
    · next hphase =>
      cases hstep
      exact .opens hphase
    · cases hstep
  | flush count =>
    simp only [step] at hstep
    split at hstep
    · next file hphase =>
      obtain ⟨⟨hcount, hqueued⟩, hstep⟩ := Option.ite_none_right_eq_some.mp hstep
      cases hstep
      exact .flushes hphase hcount hqueued
    · cases hstep
  | streamError =>
    simp only [step] at hstep
    split at hstep
    · next hphase =>
      cases hstep
      exact .errs (.inl hphase)
    · next file hphase =>
      obtain ⟨hqueued, hstep⟩ := Option.ite_none_right_eq_some.mp hstep
      cases hstep
      exact .errs (.inr ⟨file, hphase, hqueued⟩)
    · cases hstep

/-- What a step keeps of the request. -/
theorem request_of_step (hstep : h.step digest app disk ev = some (h', disk')) :
    h'.outPath = h.outPath ∧ h'.pieceCids = h.pieceCids ∧ h'.sha256 = h.sha256 := by
  cases stepped_of_step hstep with
  | endsPart hpc htakes =>
    unfold endPart
    dsimp only
    split_ifs
    · exact ⟨rfl, rfl, rfl⟩
    · exact ⟨rfl, rfl, rfl⟩
    · exact ⟨rfl, rfl, rfl⟩
  | verifies hpc hfile =>
    unfold verify
    split_ifs
    · exact ⟨rfl, rfl, rfl⟩
    · exact ⟨rfl, rfl, rfl⟩
  | _ => exact ⟨rfl, rfl, rfl⟩

/-- A response is sent once, and nothing is received behind it. -/
theorem pc_of_answered (ha : h.answered) (hstep : h.step digest app disk ev = some (h', disk')) :
    h'.pc = h.pc ∧ h'.bodies = h.bodies := by
  have hnot {pc : BridgePc} (hpc : h.pc = pc)
      (hpc' : ∀ response, pc ≠ .responded response) : False := by
    unfold answered at ha
    split at ha
    · next response hres => exact hpc' response (hpc.symm.trans hres)
    · cases ha
  cases stepped_of_step hstep with
  | opens | flushes | errs => exact ⟨rfl, rfl⟩
  | throws hpc =>
    rcases hpc with hpc | ⟨part, hpc⟩ | ⟨part, fromSecondary, hpc⟩ | hpc
    · exact (hnot hpc nofun).elim
    · exact (hnot hpc nofun).elim
    · exact (hnot hpc nofun).elim
    · exact (hnot hpc nofun).elim
  | creates hpc | retries hpc | streams hpc | refused hpc | taps hpc | endsPart hpc | finishes hpc
  | verifies hpc | unlinks hpc | keeps hpc => exact (hnot hpc nofun).elim

theorem answered_of_step (ha : h.answered)
    (hstep : h.step digest app disk ev = some (h', disk')) : h'.answered := by
  rw [answered, (pc_of_answered ha hstep).1]
  exact ha

/-- **Frame**: the handler touches no other file. -/
theorem file_of_step {l : Location} (hl : l ≠ h.outPath)
    (hstep : h.step digest app disk ev = some (h', disk')) : disk'.file l = disk.file l := by
  cases stepped_of_step hstep with
  | unlinks hpc => exact Disk.unlink_of_ne hl
  | opens hphase => exact Disk.openFile_of_ne hl
  | flushes hphase hcount hqueued => exact Disk.writeAt_of_ne hl
  | _ => rfl

theorem next_le_of_step (hstep : h.step digest app disk ev = some (h', disk')) :
    disk.next ≤ disk'.next := by
  cases stepped_of_step hstep with
  | opens hphase => exact Disk.le_next_openFile
  | flushes hphase hcount hqueued => exact Disk.le_next_writeAt
  | _ => exact le_rfl

/-- A step gives no location an old file. -/
theorem numbers_of_step {l : Location} {number : Nat} {content : Bytes}
    (hstep : h.step digest app disk ev = some (h', disk'))
    (hfile : disk'.file l = some (number, content)) :
    (∃ content', disk.file l = some (number, content')) ∨ disk.next ≤ number := by
  cases stepped_of_step hstep with
  | unlinks hpc => exact .inl ⟨content, Disk.unlink_numbers hfile⟩
  | opens hphase => exact Disk.openFile_numbers hfile
  | flushes hphase hcount hqueued => exact .inl (Disk.writeAt_numbers hfile)
  | _ => exact .inl ⟨content, hfile⟩

-- ════════════════════════════════════════════════════════════════════════
-- The handler without its stream
-- ════════════════════════════════════════════════════════════════════════

end Handler

/-- Where the handler without the stream is. -/
def BridgePc.toHandlerPc : BridgePc → HandlerPc
  | mkdir => .mkdir
  | fetching part false => .fetchPrimary part
  | fetching part true => .fetchSecondary part
  | streaming part _ => .streaming part
  | finishing => .finishing
  | stat => .stat
  | unlinking response => .unlinking response.status
  | responded response => .responded response.status

namespace Handler

variable {digest : Bytes → String} {app : App} {h h' : Handler} {disk disk' : Disk}
  {ev : BridgeEvent} {files : Files}

def toDownload (h : Handler) : Download where
  pieceCids := h.pieceCids
  outPath := h.outPath
  sha256 := h.sha256
  pc := h.pc.toHandlerPc
  hashed := h.hashed
  queued := h.queued
  written := h.written

theorem toDownload_pc : h.toDownload.pc = h.pc.toHandlerPc := rfl

theorem toDownload_endPart (part : Nat) :
    (h.endPart app part).toDownload = h.toDownload.endPart app part := by
  unfold endPart Download.endPart
  dsimp only
  split_ifs with h1 h2 h3 h4 <;> first | rfl | contradiction

theorem toDownload_verify (size : Nat) :
    (h.verify digest size).toDownload = h.toDownload.verify digest := by
  unfold verify Download.verify
  split_ifs with h1 h2 <;> first | rfl | contradiction

/-- **Simulation**: the handler moves as the handler without the stream does, or not at all. -/
theorem download_of_step (files : Files) (hstep : h.step digest app disk ev = some (h', disk')) :
    h'.toDownload = h.toDownload ∨
      ∃ ev files', h.toDownload.step digest app files ev = some (h'.toDownload, files') := by
  cases stepped_of_step hstep with
  | creates hpc =>
    refine .inr ⟨.go, files.write h.outPath [], ?_⟩
    simp only [Download.step, toDownload_pc, hpc]
    rfl
  | retries hpc hev =>
    refine .inr ⟨.fails, files, ?_⟩
    simp only [Download.step, toDownload_pc, hpc]
    rfl
  | @streams part status fromSecondary hpc hok =>
    refine .inr ⟨.answers true, files, ?_⟩
    simp only [Download.step, toDownload_pc, hpc]
    cases fromSecondary <;> rfl
  | refused hpc hok =>
    refine .inr ⟨.fails, files, ?_⟩
    simp only [Download.step, toDownload_pc, hpc]
    rfl
  | throws hpc =>
    refine .inr ⟨.fails, files, ?_⟩
    rcases hpc with hpc | ⟨part, hpc⟩ | ⟨part, fromSecondary, hpc⟩ | hpc <;>
      (simp only [Download.step, toDownload_pc, hpc]; rfl)
  | @taps part fromSecondary bytes hpc htakes =>
    refine .inr ⟨.chunk bytes, files, ?_⟩
    simp only [Download.step, toDownload_pc, hpc]
    rfl
  | @endsPart part fromSecondary hpc htakes =>
    refine .inr ⟨.bodyEnds, files, ?_⟩
    simp only [Download.step, toDownload_pc, hpc, toDownload_endPart]
    rfl
  | finishes hpc hphase hqueued =>
    refine .inr ⟨.go, files, ?_⟩
    simp only [Download.step, toDownload_pc, hpc]
    exact if_pos hqueued
  | verifies hpc hfile =>
    refine .inr ⟨.go, files, ?_⟩
    simp only [Download.step, toDownload_pc, hpc, toDownload_verify]
    rfl
  | unlinks hpc =>
    refine .inr ⟨.go, files.unlink h.outPath, ?_⟩
    simp only [Download.step, toDownload_pc, hpc]
    rfl
  | keeps hpc =>
    refine .inr ⟨.fails, files, ?_⟩
    simp only [Download.step, toDownload_pc, hpc]
    rfl
  | opens hphase => exact .inl rfl
  | @flushes file count hphase hcount hqueued =>
    refine .inr ⟨.flush count, h.toDownload.flushFile files count, ?_⟩
    refine if_pos ⟨?_, hqueued⟩
    rw [toDownload_pc]
    cases h.pc with
    | fetching part fromSecondary => cases fromSecondary <;> exact HandlerPc.noConfusion
    | _ => exact HandlerPc.noConfusion
  | errs hphase => exact .inl rfl

/-- What the handler without the stream knows, whatever is on the disk. -/
def Streams (digest : Bytes → String) (h : Handler) : Prop :=
  h.toDownload.Streams digest fun _ => none

theorem streams_new {pieceCids : List String} {outPath : Location} {sha256 : Option String} :
    Streams digest { pieceCids, outPath, sha256 } :=
  ⟨rfl, nofun, fun _ => rfl, nofun, nofun, nofun⟩

theorem Streams.step (hs : h.Streams digest)
    (hstep : h.step digest app disk ev = some (h', disk')) : h'.Streams digest := by
  obtain heq | ⟨ev, files', hcoarse⟩ := download_of_step (fun _ => none) hstep
  · rw [Streams, heq]
    exact hs
  · exact (Download.Streams.step hs hcoarse).mono nofun

end Handler

-- ════════════════════════════════════════════════════════════════════════
-- Parts and phases
-- ════════════════════════════════════════════════════════════════════════

namespace BridgePc

/-- The part that is fetched or streaming. -/
def part : BridgePc → Option Nat
  | fetching part _ | streaming part _ => some part
  | _ => none

/-- All parts have ended. -/
def complete : BridgePc → Bool
  | finishing | stat | responded (.downloaded _ _ _ _ _) => true
  | _ => false

/-- The stream has finished. -/
def finished : BridgePc → Bool
  | stat | responded (.downloaded _ _ _ _ _) => true
  | _ => false

/-- No body is streaming, and none has failed. -/
def between : BridgePc → Bool
  | mkdir | fetching _ _ => true
  | pc => pc.complete

end BridgePc

namespace Handler

variable {digest : Bytes → String} {app : App} {h h' : Handler} {disk disk' : Disk}
  {ev : BridgeEvent}

/-- What was received, part by part, and how far the stream is. -/
structure Tracks (h : Handler) : Prop where
  nonempty : 0 < h.pieceCids.length
  received : h.hashed = (h.bodies.flatten ++ h.body).flatten
  part : ∀ k ∈ h.pc.part, h.bodies.length = k ∧ k < h.pieceCids.length
  created : h.pc = .mkdir → h.bodies = [] ∧ h.phase = .notCreated
  complete : h.pc.complete → h.bodies.length = h.pieceCids.length
  between : h.pc.between → h.body = []
  unopened : h.phase = .notCreated ∨ h.phase = .opening → h.written = []
  closed : ∀ file, h.phase = .closed file → h.queued = [] ∧ h.pc.part = none
  finished : h.pc.finished → ∃ file, h.phase = .closed file
  unlinking : ∀ response, h.pc = .unlinking response → response.status ≠ 200

theorem tracks_new {pieceCids : List String} {outPath : Location} {sha256 : Option String}
    (h : 0 < pieceCids.length) : Tracks { pieceCids, outPath, sha256 } :=
  ⟨h, rfl, nofun, fun _ => ⟨rfl, rfl⟩, nofun, fun _ => rfl, fun _ => rfl, nofun, nofun, nofun⟩

/-- A failure. -/
theorem Tracks.failed {message : String} (ht : h.Tracks) : (h.failed message).Tracks :=
  ⟨ht.nonempty, ht.received, nofun, nofun, nofun, nofun, ht.unopened,
    fun file hphase => ⟨(ht.closed file hphase).1, rfl⟩, nofun,
    by rintro _ ⟨⟩; exact BridgeResponse.status_failed⟩

/-- The stream moves on, before it has finished. -/
theorem Tracks.stream {phase : StreamPhase} {written queued : Bytes} {needDrain : Bool}
    (ht : h.Tracks) (hfrom : h.phase ≠ .notCreated ∧ ∀ file, h.phase ≠ .closed file)
    (hto : (phase ≠ .notCreated ∧ phase ≠ .opening) ∧ ∀ file, phase ≠ .closed file) :
    Tracks { h with phase, written, queued, needDrain } where
  nonempty := ht.nonempty
  received := ht.received
  part := ht.part
  created hpc := absurd (ht.created hpc).2 hfrom.1
  complete := ht.complete
  between := ht.between
  unopened hphase := by
    rcases hphase with hphase | hphase
    · exact absurd hphase hto.1.1
    · exact absurd hphase hto.1.2
  closed file hphase := absurd hphase (hto.2 file)
  finished hpc := by
    obtain ⟨file, hphase⟩ := ht.finished hpc
    exact absurd hphase (hfrom.2 file)
  unlinking := ht.unlinking

theorem Tracks.tap {part : Nat} {fromSecondary : Bool} (ht : h.Tracks)
    (hpc : h.pc = .streaming part fromSecondary) (bytes : Bytes) : (h.tap bytes).Tracks where
  nonempty := ht.nonempty
  received := by
    show h.hashed ++ bytes = (h.bodies.flatten ++ (h.body ++ [bytes])).flatten
    simp [ht.received]
  part := ht.part
  created hmkdir := absurd (hpc.symm.trans hmkdir) BridgePc.noConfusion
  complete := ht.complete
  between hbetween := by
    rw [show (h.tap bytes).pc = _ from hpc] at hbetween
    cases hbetween
  unopened := ht.unopened
  closed file hphase := by
    have hnone := (ht.closed file hphase).2
    rw [hpc] at hnone
    cases hnone
  finished := ht.finished
  unlinking := ht.unlinking

theorem Tracks.endPart {part : Nat} {fromSecondary : Bool} (ht : h.Tracks)
    (hpc : h.pc = .streaming part fromSecondary) : (h.endPart app part).Tracks := by
  obtain ⟨hlen, hlt⟩ := ht.part part (by rw [hpc]; rfl)
  have hlen' : (h.bodies ++ [h.body]).length = part + 1 := by simp [hlen]
  have hreceived : h.hashed = ((h.bodies ++ [h.body]).flatten ++ []).flatten := by
    simpa using ht.received
  have hopen (file : Nat) : h.phase ≠ .closed file := by
    intro hphase
    have hnone := (ht.closed file hphase).2
    rw [hpc] at hnone
    cases hnone
  unfold Handler.endPart
  dsimp only
  split_ifs with hcap hmore
  · exact ⟨ht.nonempty, hreceived, nofun, nofun, nofun, nofun, ht.unopened,
      fun file hphase => absurd hphase (hopen file), nofun,
    by rintro _ ⟨⟩; exact BridgeResponse.status_failed⟩
  · refine ⟨ht.nonempty, hreceived, fun k hk => ?_, nofun, nofun, fun _ => rfl, ht.unopened,
      fun file hphase => absurd hphase (hopen file), nofun, nofun⟩
    obtain rfl : part + 1 = k := Option.some.inj hk
    exact ⟨hlen', hmore⟩
  · refine ⟨ht.nonempty, hreceived, nofun, nofun, fun _ => ?_, fun _ => rfl, ht.unopened,
      fun file hphase => absurd hphase (hopen file), nofun, nofun⟩
    show (h.bodies ++ [h.body]).length = h.pieceCids.length
    omega

theorem Tracks.verify (ht : h.Tracks) (hpc : h.pc = .stat) (size : Nat) :
    (h.verify digest size).Tracks := by
  obtain ⟨file, hphase⟩ := ht.finished (by rw [hpc]; rfl)
  have hclosed := (ht.closed file hphase).1
  unfold Handler.verify
  split_ifs with hany
  · exact ⟨ht.nonempty, ht.received, nofun, nofun, nofun, nofun, ht.unopened,
      fun _ _ => ⟨hclosed, rfl⟩, nofun, by rintro _ ⟨⟩; exact BridgeResponse.status_mismatch⟩
  · exact ⟨ht.nonempty, ht.received, nofun, nofun, fun _ => ht.complete (by rw [hpc]; rfl),
      fun _ => ht.between (by rw [hpc]; rfl), ht.unopened, fun _ _ => ⟨hclosed, rfl⟩,
      fun _ => ⟨file, hphase⟩, nofun⟩

theorem Tracks.respond {response : BridgeResponse} (ht : h.Tracks)
    (hpc : h.pc = .unlinking response) : Tracks { h with pc := .responded response } := by
  have hnot : (BridgePc.responded response).finished = false := by
    have hstatus := ht.unlinking response hpc
    cases response with
    | downloaded => exact absurd rfl hstatus
    | _ => rfl
  have hcomplete : (BridgePc.responded response).complete = false := by
    cases response with
    | downloaded => exact hnot
    | _ => rfl
  refine ⟨ht.nonempty, ht.received, nofun, nofun, fun hc => ?_, fun hc => ?_, ht.unopened,
    fun file hphase => ⟨(ht.closed file hphase).1, rfl⟩, fun hc => ?_, nofun⟩
  · exact absurd hc (by simp [hcomplete])
  · exact absurd hc (by simp [BridgePc.between, hcomplete])
  · exact absurd hc (by simp [hnot])

theorem Tracks.step (ht : h.Tracks) (hstep : h.step digest app disk ev = some (h', disk')) :
    h'.Tracks := by
  cases stepped_of_step hstep with
  | creates hpc =>
    obtain ⟨hbodies, hphase⟩ := ht.created hpc
    refine ⟨ht.nonempty, ht.received, fun k hk => ?_, nofun, nofun,
      fun _ => ht.between (by rw [hpc]; rfl), fun _ => ht.unopened (.inl hphase), nofun, nofun,
      nofun⟩
    obtain rfl : 0 = k := Option.some.inj hk
    exact ⟨by rw [hbodies]; rfl, ht.nonempty⟩
  | retries hpc hev =>
    refine ⟨ht.nonempty, ht.received, fun k hk => ht.part k (by rw [hpc]; exact hk), nofun, nofun,
      fun _ => ht.between (by rw [hpc]; rfl), ht.unopened, fun file hphase => ?_, nofun, nofun⟩
    have hnone := (ht.closed file hphase).2
    rw [hpc] at hnone
    cases hnone
  | streams hpc hok =>
    refine ⟨ht.nonempty, ht.received, fun k hk => ht.part k (by rw [hpc]; exact hk), nofun, nofun,
      nofun, ht.unopened, fun file hphase => ?_, nofun, nofun⟩
    have hnone := (ht.closed file hphase).2
    rw [hpc] at hnone
    cases hnone
  | refused | throws => exact ht.failed
  | taps hpc htakes => exact ht.tap hpc _
  | endsPart hpc htakes => exact ht.endPart hpc
  | finishes hpc hphase hqueued =>
    exact ⟨ht.nonempty, ht.received, nofun, nofun, fun _ => ht.complete (by rw [hpc]; rfl),
      fun _ => ht.between (by rw [hpc]; rfl), nofun, fun _ _ => ⟨hqueued, rfl⟩,
      fun _ => ⟨_, rfl⟩, nofun⟩
  | verifies hpc hfile => exact ht.verify hpc _
  | unlinks hpc | keeps hpc => exact ht.respond hpc
  | opens hphase =>
    exact ht.stream ⟨by rw [hphase]; nofun, by rw [hphase]; nofun⟩ ⟨⟨nofun, nofun⟩, nofun⟩
  | flushes hphase hcount hqueued =>
    have hfrom : h.phase ≠ .notCreated ∧ ∀ file, h.phase ≠ .closed file :=
      ⟨by rw [hphase]; nofun, by rw [hphase]; nofun⟩
    exact ht.stream hfrom ⟨⟨hfrom.1, by rw [hphase]; nofun⟩, hfrom.2⟩
  | errs hphase =>
    have hfrom : h.phase ≠ .notCreated ∧ ∀ file, h.phase ≠ .closed file := by
      rcases hphase with hphase | ⟨file, hphase, -⟩
      · exact ⟨by rw [hphase]; nofun, by rw [hphase]; nofun⟩
      · exact ⟨by rw [hphase]; nofun, by rw [hphase]; nofun⟩
    exact ht.stream hfrom ⟨⟨nofun, nofun⟩, nofun⟩

end Handler

end OpenModel.FocBridge
