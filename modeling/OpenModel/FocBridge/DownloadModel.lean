import OpenModel.Lib.FileSystem
import Mathlib.Data.List.Basic

/-!
# The bridge's download

`POST /download-model` fetches the pieces of a model one after the other, each from the primary
storage provider or else from the secondary one, and appends them to one file. Every chunk goes
through the hasher on its way into the write stream, which writes it later. Only when all has
been written is the digest compared with the one that the request asked for.

The providers answer anything, and every operation may fail. SHA-256 is any function of the
bytes. The paths of the shared volume have no symbolic links.

## Main results

- `Download.Streams.step`: what was hashed is what was written and what is about to be, and
  behind a success all is written and has the digest that was asked for
- `Download.files_of_step`: the handler touches no other file
-/

namespace OpenModel.FocBridge

abbrev Bytes := List UInt8

abbrev Location := List String

/-- The regular files of the shared volume. -/
abbrev Files := Location → Option Bytes

namespace Files

variable {files : Files} {l l' : Location}

def write (files : Files) (l : Location) (content : Bytes) : Files :=
  fun l' => if l' = l then some content else files l'

def unlink (files : Files) (l : Location) : Files := fun l' => if l' = l then none else files l'

theorem write_of_ne {content : Bytes} (h : l' ≠ l) : files.write l content l' = files l' := if_neg h

@[simp] theorem write_self {content : Bytes} : files.write l content l = some content := if_pos rfl

theorem unlink_eq_some {content : Bytes} (h : files.unlink l l' = some content) :
    files l' = some content := by
  unfold unlink at h
  split_ifs at h
  exact h

end Files

/-- `path.resolve(base, p)`, which is also where the kernel finds `p` from `base`. -/
def pathResolve (base : Location) (p : PurePath) : Location :=
  p.parts.foldl (fun l c => if c = ".." then l.dropLast else l ++ [c])
    (if p.absolute then [] else base)

/-- `s.lower()` and `s.toLowerCase()`, on the letters that a digest can have. -/
def lower (s : String) : String := String.ofList (s.toList.map Char.toLower)

/-- What `createApp` is given. -/
structure App where
  modelsDir : Location
  authToken : String := ""
  maxParts : Nat := 512
  maxTotalBytes : Nat := 200 * 1024 * 1024 * 1024
  deriving DecidableEq, Repr

structure DownloadRequest where
  authorization : String := ""
  pieceCids : List String
  destPath : String
  sha256 : Option String
  deriving DecidableEq, Repr

def isValidCid (cid : String) : Bool :=
  0 < cid.length && cid.length ≤ 256 && cid.toList.all Char.isAlphanum

/-- `/^[0-9a-fA-F]{64}$/` -/
def isDigest (s : String) : Bool :=
  s.length == 64 &&
    s.toList.all fun c => c.isDigit || ('a' ≤ c && c ≤ 'f') || ('A' ≤ c && c ≤ 'F')

def resolveSafeDest (destPath : String) (baseDir : Location) : Option Location :=
  let resolved := pathResolve baseDir (PurePath.parse destPath)
  if destPath = "" then none
  -- nothing starts with the root and a second separator
  else if resolved ≠ baseDir ∧ ¬ (baseDir ≠ [] ∧ baseDir <+: resolved) then none
  else some resolved

/-- The checks of a request: a status, or the path to download to. -/
def App.accept (app : App) (inFlight : List Location) (req : DownloadRequest) :
    Except Nat Location :=
  if app.authToken ≠ "" ∧ req.authorization ≠ "Bearer " ++ app.authToken then .error 401
  else if req.sha256.any fun s => !isDigest s then .error 400
  else if req.pieceCids = [] then .error 400
  else if app.maxParts < req.pieceCids.length then .error 400
  else if req.pieceCids.any fun cid => !isValidCid cid then .error 400
  else
    match
      if req.destPath = "" then some (app.modelsDir ++ ["foc-model-download.tar.gz"])
      else resolveSafeDest req.destPath app.modelsDir with
    | none => .error 400
    | some outPath => if outPath ∈ inFlight then .error 409 else .ok outPath

-- ════════════════════════════════════════════════════════════════════════
-- The handler
-- ════════════════════════════════════════════════════════════════════════

/-- Where the handler is. -/
inductive HandlerPc
  /-- creating the parent directory, then the write stream -/
  | mkdir
  | fetchPrimary (part : Nat)
  | fetchSecondary (part : Nat)
  /-- in the pipeline from the body to the write stream -/
  | streaming (part : Nat)
  /-- the write stream was ended and has not finished -/
  | finishing
  | stat
  /-- removing the file, then the response -/
  | unlinking (status : Nat)
  | responded (status : Nat)
  /-- an error that nobody listens for ended the process -/
  | crashed
  deriving DecidableEq, Repr

/-- A request that was accepted. -/
structure Download where
  pieceCids : List String
  outPath : Location
  sha256 : Option String
  pc : HandlerPc := .mkdir
  /-- what the hasher was updated with -/
  hashed : Bytes := []
  /-- what the write stream still has to write -/
  queued : Bytes := []
  /-- what it has written to its file -/
  written : Bytes := []
  deriving DecidableEq, Repr

inductive HandlerEvent
  | go
  /-- the operation fails -/
  | fails
  /-- the storage provider answers; `ok` is `resp.ok` -/
  | answers (ok : Bool)
  /-- a chunk of the body -/
  | chunk (bytes : Bytes)
  | bodyEnds
  /-- the write stream writes so many bytes -/
  | flush (count : Nat)
  | crash
  deriving DecidableEq, Repr

namespace Download

variable {d d' : Download} {files files' : Files} {digest : Bytes → String} {app : App}
  {ev : HandlerEvent}

/-- The `catch`. -/
def failed (d : Download) : Download := { d with pc := .unlinking 500 }

/-- A chunk goes through the `hashTap` into the write stream. -/
def tap (d : Download) (bytes : Bytes) : Download :=
  { d with hashed := d.hashed ++ bytes, queued := d.queued ++ bytes }

/-- A part has ended. -/
def endPart (d : Download) (app : App) (part : Nat) : Download :=
  if app.maxTotalBytes < d.written.length then d.failed
  else if part + 1 < d.pieceCids.length then { d with pc := .fetchPrimary (part + 1) }
  else { d with pc := .finishing }

/-- All has been written: compare the digest. -/
def verify (d : Download) (digest : Bytes → String) : Download :=
  if d.sha256.any fun s => digest d.hashed ≠ lower s then { d with pc := .unlinking 422 }
  else { d with pc := .responded 200 }

/-- The write stream writes to the file that it has opened; when the path was removed, nobody
sees it. -/
def flush (d : Download) (count : Nat) : Download :=
  { d with written := d.written ++ d.queued.take count, queued := d.queued.drop count }

def flushFile (d : Download) (files : Files) (count : Nat) : Files :=
  if (files d.outPath).isSome then files.write d.outPath (d.flush count).written else files

/-- One step of the handler and its write stream. -/
def step (digest : Bytes → String) (app : App) (d : Download) (files : Files) :
    HandlerEvent → Option (Download × Files)
  | .go =>
    match d.pc with
    | .mkdir => some ({ d with pc := .fetchPrimary 0 }, files.write d.outPath [])
    | .finishing => if d.queued = [] then some ({ d with pc := .stat }, files) else none
    | .stat => some (d.verify digest, files)
    | .unlinking status => some ({ d with pc := .responded status }, files.unlink d.outPath)
    | _ => none
  | .fails =>
    match d.pc with
    | .fetchPrimary part => some ({ d with pc := .fetchSecondary part }, files)
    | .mkdir | .fetchSecondary _ | .streaming _ | .stat => some (d.failed, files)
    | .unlinking status => some ({ d with pc := .responded status }, files)
    | _ => none
  | .answers ok =>
    match d.pc with
    | .fetchPrimary part =>
      some ({ d with pc := if ok then .streaming part else .fetchSecondary part }, files)
    | .fetchSecondary part => some (if ok then { d with pc := .streaming part } else d.failed, files)
    | _ => none
  | .chunk bytes =>
    match d.pc with
    | .streaming _ => some (d.tap bytes, files)
    | _ => none
  | .bodyEnds =>
    match d.pc with
    | .streaming part => some (d.endPart app part, files)
    | _ => none
  | .flush count =>
    if d.pc ≠ .crashed ∧ d.queued ≠ [] then some (d.flush count, d.flushFile files count) else none
  | .crash =>
    match d.pc with
    | .responded _ => none
    | _ => some ({ d with pc := .crashed }, files)

end Download

/-- The file is the stream's own and the request has not failed. -/
def HandlerPc.proceeds : HandlerPc → Bool
  | fetchPrimary _ | fetchSecondary _ | streaming _ | finishing | stat | responded 200 => true
  | _ => false

/-- All that was hashed has been written. -/
def HandlerPc.flushed : HandlerPc → Bool
  | stat | responded 200 => true
  | _ => false

theorem HandlerPc.eq_of_proceeds {status : Nat} (h : (responded status).proceeds) :
    status = 200 := by
  unfold proceeds at h
  split at h <;> simp_all

theorem HandlerPc.proceeds_of_flushed {pc : HandlerPc} (h : pc.flushed) : pc.proceeds := by
  unfold flushed at h
  split at h <;> simp_all [proceeds]

namespace Download

variable {d d' : Download} {files files' : Files} {digest : Bytes → String} {app : App}
  {ev : HandlerEvent}

-- ════════════════════════════════════════════════════════════════════════
-- What a step does
-- ════════════════════════════════════════════════════════════════════════

/-- What a step of the handler or its write stream can do. -/
inductive Stepped (digest : Bytes → String) (d : Download) (files : Files) :
    Download → Files → Prop
  | opens (hpc : d.pc = .mkdir) :
    Stepped digest d files { d with pc := .fetchPrimary 0 } (files.write d.outPath [])
  | moves {pc : HandlerPc} (hpc : pc ≠ .mkdir) (hproceeds : pc.proceeds → d.pc.proceeds)
    (hflushed : pc.flushed → d.queued = []) (hres : pc ≠ .responded 200)
    (hunlinking : pc ≠ .unlinking 200) : Stepped digest d files { d with pc } files
  | taps {part : Nat} {bytes : Bytes} (hpc : d.pc = .streaming part) :
    Stepped digest d files (d.tap bytes) files
  | verifies (hpc : d.pc = .stat) : Stepped digest d files (d.verify digest) files
  | responds {status : Nat} {files' : Files} (hpc : d.pc = .unlinking status)
    (hfiles : files' = files ∨ files' = files.unlink d.outPath) :
    Stepped digest d files { d with pc := .responded status } files'
  | flushes {count : Nat} (hqueued : d.queued ≠ []) :
    Stepped digest d files (d.flush count) (d.flushFile files count)

theorem stepped_failed : Stepped digest d files d.failed files :=
  .moves HandlerPc.noConfusion (fun h => by cases h) (fun h => by cases h) HandlerPc.noConfusion
    (by simp)

/-- A fetch or the next part, from a state that proceeds. -/
theorem stepped_proceeds {pc : HandlerPc} (hd : d.pc.proceeds) (hpc : pc ≠ .mkdir)
    (hflushed : pc.flushed = false) (hunlinking : pc ≠ .unlinking 200) :
    Stepped digest d files { d with pc } files := by
  refine .moves hpc (fun _ => hd) (fun h => ?_) ?_ hunlinking
  · rw [hflushed] at h
    cases h
  · rintro rfl
    cases hflushed

theorem stepped_endPart {part : Nat} (hpc : d.pc = .streaming part) :
    Stepped digest d files (d.endPart app part) files := by
  have hd : d.pc.proceeds := by rw [hpc]; rfl
  unfold endPart
  split_ifs
  · exact stepped_failed
  · exact stepped_proceeds hd HandlerPc.noConfusion rfl HandlerPc.noConfusion
  · exact stepped_proceeds hd HandlerPc.noConfusion rfl HandlerPc.noConfusion

theorem stepped_of_step (h : d.step digest app files ev = some (d', files')) :
    Stepped digest d files d' files' := by
  cases ev with
  | go =>
    simp only [step] at h
    split at h
    · next hpc =>
      cases h
      exact .opens hpc
    · next hpc =>
      obtain ⟨hqueued, h⟩ := Option.ite_none_right_eq_some.mp h
      cases h
      exact .moves HandlerPc.noConfusion (fun _ => by rw [hpc]; rfl) (fun _ => hqueued)
        HandlerPc.noConfusion HandlerPc.noConfusion
    · next hpc =>
      cases h
      exact .verifies hpc
    · next status hpc =>
      cases h
      exact .responds hpc (.inr rfl)
    · cases h
  | fails =>
    simp only [step] at h
    split at h
    · next part hpc =>
      cases h
      exact stepped_proceeds (by rw [hpc]; rfl) HandlerPc.noConfusion rfl HandlerPc.noConfusion
    · cases h
      exact stepped_failed
    · cases h
      exact stepped_failed
    · cases h
      exact stepped_failed
    · cases h
      exact stepped_failed
    · next status hpc =>
      cases h
      exact .responds hpc (.inl rfl)
    · cases h
  | answers ok =>
    simp only [step] at h
    split at h
    · next part hpc =>
      cases h
      have hd : d.pc.proceeds := by rw [hpc]; rfl
      cases ok with
      | true => exact stepped_proceeds hd HandlerPc.noConfusion rfl HandlerPc.noConfusion
      | false => exact stepped_proceeds hd HandlerPc.noConfusion rfl HandlerPc.noConfusion
    · next part hpc =>
      cases h
      cases ok with
      | true =>
        exact stepped_proceeds (by rw [hpc]; rfl) HandlerPc.noConfusion rfl HandlerPc.noConfusion
      | false => exact stepped_failed
    · cases h
  | chunk bytes =>
    simp only [step] at h
    split at h
    · next part hpc =>
      cases h
      exact .taps hpc
    · cases h
  | bodyEnds =>
    simp only [step] at h
    split at h
    · next part hpc =>
      cases h
      exact stepped_endPart hpc
    · cases h
  | flush count =>
    obtain ⟨⟨-, hqueued⟩, h⟩ := Option.ite_none_right_eq_some.mp h
    cases h
    exact .flushes hqueued
  | crash =>
    simp only [step] at h
    split at h
    · cases h
    · cases h
      exact .moves HandlerPc.noConfusion (fun h => by cases h) (fun h => by cases h)
        HandlerPc.noConfusion HandlerPc.noConfusion

/-- What a step keeps of the request. -/
theorem request_of_step (h : d.step digest app files ev = some (d', files')) :
    d'.outPath = d.outPath ∧ d'.sha256 = d.sha256 := by
  cases stepped_of_step h with
  | verifies hpc =>
    unfold verify
    split_ifs <;> exact ⟨rfl, rfl⟩
  | _ => exact ⟨rfl, rfl⟩

/-- **Frame**: the handler touches no other file. -/
theorem files_of_step {l : Location} (hl : l ≠ d.outPath)
    (h : d.step digest app files ev = some (d', files')) : files' l = files l := by
  cases stepped_of_step h with
  | opens hpc => exact Files.write_of_ne hl
  | responds hpc hfiles =>
    rcases hfiles with rfl | rfl
    · rfl
    · exact if_neg hl
  | flushes hqueued =>
    unfold flushFile
    split_ifs
    · exact Files.write_of_ne hl
    · rfl
  | _ => rfl

/-- The hasher and the file agree, but for what is still queued. -/
structure Streams (digest : Bytes → String) (d : Download) (files : Files) : Prop where
  hashed : d.hashed = d.written ++ d.queued
  file : d.pc.proceeds → ∀ content, files d.outPath = some content → content = d.written
  fresh : d.pc = .mkdir → d.hashed = []
  queued : d.pc.flushed → d.queued = []
  unlinking : d.pc ≠ .unlinking 200
  verified : d.pc = .responded 200 → ∀ s ∈ d.sha256, digest d.hashed = lower s

/-- Somebody removes the file, or not. -/
theorem Streams.mono (h : d.Streams digest files)
    (hfiles : ∀ content, files' d.outPath = some content → files d.outPath = some content) :
    d.Streams digest files' :=
  ⟨h.hashed, fun hp content hc => h.file hp content (hfiles content hc), h.fresh, h.queued,
    h.unlinking, h.verified⟩

/-- After a success nothing happens. -/
theorem step_responded (hpc : d.pc = .responded 200) (hqueued : d.queued = []) :
    d.step digest app files ev = none := by
  cases ev <;> simp [step, hpc, hqueued]

theorem Streams.verify (h : d.Streams digest files) (hpc : d.pc = .stat) :
    (d.verify digest).Streams digest files := by
  have hqueued : d.queued = [] := h.queued (by rw [hpc]; rfl)
  have hfile : ∀ content, files d.outPath = some content → content = d.written :=
    h.file (by rw [hpc]; rfl)
  unfold Download.verify
  split_ifs with hany
  · exact ⟨h.hashed, nofun, nofun, nofun, by simp, nofun⟩
  · refine ⟨h.hashed, fun _ => hfile, HandlerPc.noConfusion, fun _ => hqueued,
      HandlerPc.noConfusion, fun _ s hs => ?_⟩
    by_contra hne
    refine hany ?_
    rw [show d.sha256 = some s from hs]
    simpa using hne

theorem Streams.flush {count : Nat} (h : d.Streams digest files) (hqueued : d.queued ≠ []) :
    (d.flush count).Streams digest (d.flushFile files count) := by
  have hnot : d.pc.flushed = false := by
    by_contra hflushed
    exact hqueued (h.queued (by simpa using hflushed))
  refine ⟨?_, fun hp content hc => ?_, h.fresh, fun hf => ?_, h.unlinking, fun hp => ?_⟩
  · simp [Download.flush, h.hashed]
  · unfold flushFile at hc
    split_ifs at hc with hsome
    · exact (Option.some.inj ((Files.write_self).symm.trans hc)).symm
    · rw [show files d.outPath = some content from hc] at hsome
      exact absurd rfl hsome
  · rw [show (d.flush count).pc = d.pc from rfl, hnot] at hf
    cases hf
  · rw [show d.pc = .responded 200 from hp] at hnot
    cases hnot

/-- **Hash and file**: every step keeps them together. -/
theorem Streams.step (h : d.Streams digest files)
    (hstep : d.step digest app files ev = some (d', files')) : d'.Streams digest files' := by
  cases stepped_of_step hstep with
  | opens hpc =>
    refine ⟨h.hashed, fun _ content hc => ?_, nofun, nofun, nofun, nofun⟩
    have hwritten : d.written = [] := (List.append_eq_nil_iff.mp (h.hashed.symm.trans (h.fresh hpc))).1
    show content = d.written
    rw [hwritten]
    simpa using hc.symm
  | moves hpc hproceeds hflushed hres hunlinking =>
    exact ⟨h.hashed, fun hp => h.file (hproceeds hp), fun hp => absurd hp hpc, hflushed, hunlinking,
      fun hp => absurd hp hres⟩
  | taps hpc =>
    refine ⟨?_, h.file, fun hp => ?_, fun hf => ?_, h.unlinking, fun hp => ?_⟩
    · simp [tap, h.hashed]
    · exact absurd (hpc.symm.trans hp) HandlerPc.noConfusion
    · rw [show (d.tap _).pc = d.pc from rfl, hpc] at hf
      cases hf
    · exact absurd (hpc.symm.trans hp) HandlerPc.noConfusion
  | verifies hpc => exact h.verify hpc
  | @responds status _ hpc hfiles =>
    have hstatus : status ≠ 200 := fun heq => h.unlinking (by rw [hpc, heq])
    refine ⟨h.hashed, fun hp => ?_, nofun, fun hf => ?_, nofun, fun hp => ?_⟩
    · exact absurd (HandlerPc.eq_of_proceeds hp) hstatus
    · exact absurd (HandlerPc.eq_of_proceeds (HandlerPc.proceeds_of_flushed hf)) hstatus
    · exact absurd (HandlerPc.responded.inj hp) hstatus
  | flushes hqueued => exact h.flush hqueued

end Download

end OpenModel.FocBridge
