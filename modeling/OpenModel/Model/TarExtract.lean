import OpenModel.Lib.RealPath
import OpenModel.Lib.Transition
import OpenModel.Model.FocReal

/-!
# Extracting a tarball

`_safe_extractall` on an interpreter whose `extractall` knows no filter: every member is
checked on the tree as it is before anything is extracted, then all are extracted.

An extraction is a run. A member is a call of `_extract_member`, which creates the
directories above the path and then makes what the member is. A link that cannot be made
is replaced by the member that it points to, extracted to the path of the link; that is
another call. What the operating system refuses is a choice of the run, and an exception
ends it. Owners, modes and times are left out.

## Main results

- `Extraction.stays_of_step`: a step on a member that would pass its check at that moment
  stays in the directory
- `TarJob.confined_of_reach`: so does an extraction of such steps
- `TarJob.escapes_of_accepted`: members that pass the check escape
-/

namespace OpenModel.Model

/-- What a member is. -/
inductive TarType
  | file (content : List UInt8)
  | dir
  | symlink (linkname : String)
  | hardlink (linkname : String)
  deriving DecidableEq

def TarType.linkname : TarType → Option String
  | symlink linkname | hardlink linkname => some linkname
  | _ => none

structure TarMember where
  name : String
  type : TarType
  deriving DecidableEq

/-- An extraction into `dest`. -/
structure TarJob where
  cwd : List String
  dest : PurePath
  members : List TarMember

-- ════════════════════════════════════════════════════════════════════════
-- Names
-- ════════════════════════════════════════════════════════════════════════

/-- `os.path.basename(s.rstrip("/")) == "."` -/
def endsInDot (s : String) : Bool :=
  ((s.toList.reverse.dropWhile (· = '/')).takeWhile (· ≠ '/')) == ['.']

/-- The last component of the path must be a directory. -/
def namesDir (s : String) : Bool :=
  endsInDot s || s.toList.getLast?.all (· = '/')

/-- `os.path.dirname(s)` -/
def dirname (s : String) : String :=
  let head := s.toList.reverse.dropWhile (· ≠ '/')
  String.ofList (if head.all (· = '/') then head else (head.dropWhile (· = '/')).reverse)

/-- `os.path.normpath(s)`, as the number of its leading slashes and its components. -/
def normpath (s : String) : Nat × List String :=
  let slashes := (s.toList.takeWhile (· = '/')).length
  let initial := if slashes = 2 then 2 else min slashes 1
  (initial, (PurePath.components s).foldl (fun comps c =>
    if c ≠ ".." ∨ (initial = 0 ∧ comps = []) ∨ comps.getLast? = some ".." then comps ++ [c]
    else comps.dropLast) [])

-- ════════════════════════════════════════════════════════════════════════
-- `_safe_extractall`
-- ════════════════════════════════════════════════════════════════════════

inductive TarError
  /-- `resolve` meets a link that leads back to itself -/
  | symlinkLoop
  | memberEscapes (name : String)
  | linkEscapes (name linkname : String)
  deriving DecidableEq, Repr

/-- The message of an exception of `_safe_extractall` itself. -/
def TarError.message : TarError → Option String
  | symlinkLoop => none
  | memberEscapes name => some ("unsafe tar member escapes destination: " ++ name)
  | linkEscapes name linkname =>
    some ("unsafe tar link escapes destination: " ++ name ++ " -> " ++ linkname)

namespace TarJob

/-- `dest / m.name` -/
def path (job : TarJob) (m : TarMember) : PurePath := job.dest.join (PurePath.parse m.name)

/-- The check of a member, at a path. `root` is `dest_resolved`; the strings are compared
with a slash behind it, that is name by name. -/
def check (job : TarJob) (fs : FileSystem) (root : List String) (path : PurePath) (m : TarMember) :
    Except TarError Unit :=
  match fs.realpath job.cwd path with
  | none => .error .symlinkLoop
  | some target =>
    if ¬ root <+: target then .error (.memberEscapes m.name)
    else
      match m.type.linkname with
      | none => .ok ()
      | some linkname =>
        match fs.realpath target.dropLast (PurePath.parse linkname) with
        | none => .error .symlinkLoop
        | some link =>
          if root <+: link ∧ (link ≠ root ∨ root = []) then .ok ()
          else .error (.linkEscapes m.name linkname)

/-- `_safe_extractall` goes on to `extractall`. -/
def Accepted (job : TarJob) (fs : FileSystem) (root : List String) : Prop :=
  fs.realpath job.cwd job.dest = some root ∧
    ∀ m ∈ job.members, job.check fs root (job.path m) m = .ok ()

instance (job : TarJob) (fs : FileSystem) (root : List String) :
    Decidable (job.Accepted fs root) :=
  inferInstanceAs (Decidable (_ ∧ _))

-- ════════════════════════════════════════════════════════════════════════
-- `extractall`
-- ════════════════════════════════════════════════════════════════════════

/-- `_getmember(name, normalize=True)` among the first members. -/
def lastNamed (job : TarJob) (limit : Nat) (name : String) : Option Nat :=
  (List.range limit).reverse.find? fun i =>
    job.members[i]?.any fun m => normpath m.name == normpath name

/-- `_find_link_target`: for a symbolic link among all members, for a hard link among those
before it. -/
def findLinkTarget (job : TarJob) (i : Nat) : Option Nat :=
  job.members[i]?.bind fun m =>
    match m.type with
    | .symlink linkname =>
      job.lastNamed job.members.length
        ("/".intercalate ([dirname m.name, linkname].filter (· ≠ "")))
    | .hardlink linkname => job.lastNamed i linkname
    | _ => none

/-- `_link_target` -/
def linkTarget (job : TarJob) (linkname : String) : PurePath :=
  job.dest.join (PurePath.parse linkname)

/-- `os.path.exists(tarinfo._link_target)` -/
def linkTargetExists (job : TarJob) (fs : FileSystem) (linkname : String) : Bool :=
  if namesDir linkname then fs.isDir job.cwd (job.linkTarget linkname)
  else fs.pathExists job.cwd (job.linkTarget linkname)

end TarJob

/-- Where `_extract_member` is. -/
inductive TarPhase
  /-- looking for the directories above the path -/
  | upper
  /-- in `makedirs`, about to create the first so many components -/
  | mkdirs (count : Nat)
  | make
  deriving DecidableEq, Repr

/-- A call of `_extract_member`. -/
structure TarCall where
  member : Nat
  path : PurePath
  /-- the path ends in a dot, which `path` does not have -/
  dot : Bool
  phase : TarPhase := .upper
  /-- the members that `makelink` extracts when the call raises an `OSError` -/
  handlers : List Nat := []
  /-- a `KeyError` becomes an `ExtractError`, which `extract` ignores -/
  handled : Bool := false
  deriving DecidableEq

namespace TarCall

/-- `upperdirs` -/
def upperdirs (c : TarCall) : PurePath := if c.dot then c.path else parentPath c.path

/-- The entry that the call makes; a path that ends in dots is a directory that is there. -/
def entry (c : TarCall) (cwd : List String) (fs : FileSystem) : Option (List String) :=
  if c.dot then none else fs.entryOf cwd c.path

/-- Behind the `mkdir` of so many components. -/
def afterMkdir (c : TarCall) (count : Nat) : TarPhase :=
  if count < c.upperdirs.parts.length then .mkdirs (count + 1) else .make

end TarCall

/-- `p` up to so many components. -/
def takePath (p : PurePath) (count : Nat) : PurePath where
  absolute := p.absolute
  parts := p.parts.take count
  parts_ne c hc := p.parts_ne c (List.mem_of_mem_take hc)

/-- The tree, and all that was created, overwritten, removed or hard-linked. The content of
a file is what was written when its name was made. -/
structure Extraction where
  fs : FileSystem
  next : Nat := 0
  call : Option TarCall := none
  touched : List (List String) := []

inductive TarLabel
  | go
  /-- the operating system refuses what the call asks for -/
  | refused
  deriving DecidableEq, Repr

namespace Extraction

/-- Go on in the call. -/
def goOn (s : Extraction) (c : TarCall) (phase : TarPhase) : Extraction :=
  { s with call := some { c with phase } }

/-- The call is over. -/
def done (s : Extraction) : Extraction := { s with call := none }

/-- The tree is changed at some locations. -/
def touch (s : Extraction) (fs : FileSystem) (locations : List (List String)) : Extraction :=
  { s with fs, touched := locations ++ s.touched }

/-- An `OSError`; without a handler it ends the extraction. -/
def osError (s : Extraction) (c : TarCall) : Option Extraction :=
  match c.handlers with
  | [] => none
  | i :: rest =>
    some { s with
      call := some { c with member := i, phase := .upper, handlers := rest, handled := true } }

/-- The `except` of `makelink`: what the link points to is extracted in its place. -/
def makeCopy (job : TarJob) (s : Extraction) (c : TarCall) : Option Extraction :=
  match job.findLinkTarget c.member with
  | some i => some { s with call := some { c with member := i, phase := .upper, handled := true } }
  | none => some s.done

/-- The same, in the `try` of `makelink`. -/
def tryCopy (job : TarJob) (s : Extraction) (c : TarCall) : Option Extraction :=
  match job.findLinkTarget c.member with
  | some i =>
    some { s with
      call := some { c with member := i, phase := .upper, handlers := i :: c.handlers } }
  | none => if c.handled then some s.done else none

/-- `mkdir` finds the component there, which is an error only in the last place. -/
def fileExists (s : Extraction) (c : TarCall) (count : Nat) : Option Extraction :=
  if count < c.upperdirs.parts.length then some (s.goOn c (.mkdirs (count + 1))) else s.osError c

/-- One `mkdir` of `makedirs`. -/
def mkdir (job : TarJob) (s : Extraction) (c : TarCall) (count : Nat) : Option Extraction :=
  match s.fs.entryOf job.cwd (takePath c.upperdirs count) with
  | some q =>
    if s.fs.lookup q = none then
      match s.fs.put q .dir with
      | some fs => some ((s.touch fs [q]).goOn c (c.afterMkdir count))
      | none => s.osError c
    else s.fileExists c count
  | none =>
    if s.fs.pathExists job.cwd (takePath c.upperdirs count) then s.fileExists c count
    else s.osError c

def makefile (job : TarJob) (s : Extraction) (c : TarCall) (content : List UInt8) : Option Extraction :=
  match if c.dot then none else s.fs.openAt job.cwd c.path with
  | some q =>
    match s.fs.put q (.file content) with
    | some fs => some (s.touch fs [q]).done
    | none => s.osError c
  | none => s.osError c

def makedir (job : TarJob) (s : Extraction) (c : TarCall) : Option Extraction :=
  match c.entry job.cwd s.fs with
  | some q =>
    if s.fs.lookup q = none then
      match s.fs.put q .dir with
      | some fs => some (s.touch fs [q]).done
      | none => s.osError c
    else some s.done
  | none => some s.done

/-- A symbolic link; what is there is removed first, in a step of its own. -/
def symlink (job : TarJob) (s : Extraction) (c : TarCall) (linkname : String) :
    Option Extraction :=
  match c.entry job.cwd s.fs with
  | some q =>
    match s.fs.lookup q with
    | none =>
      if linkname = "" then s.makeCopy job c
      else
        match s.fs.put q (.symlink (PurePath.parse linkname)) with
        | some fs => some (s.touch fs [q]).done
        | none => s.makeCopy job c
    | some .dir => s.makeCopy job c
    | some _ => some (s.touch (s.fs.erase q) [q])
  | none => s.makeCopy job c

/-- A hard link, which leads to a symbolic link itself and not behind it. -/
def hardlink (job : TarJob) (s : Extraction) (c : TarCall) (linkname : String) :
    Option Extraction :=
  match s.fs.entryOf job.cwd (job.linkTarget linkname), c.entry job.cwd s.fs with
  | some source, some q =>
    match s.fs.lookup source, s.fs.lookup q with
    | some x, none =>
      if x = .dir then s.makeCopy job c
      else
        match s.fs.put q x with
        | some fs => some (s.touch fs [source, q]).done
        | none => s.makeCopy job c
    | _, _ => s.makeCopy job c
  | _, _ => s.makeCopy job c

/-- `makefile`, `makedir` or `makelink`. -/
def make (job : TarJob) (s : Extraction) (c : TarCall) (l : TarLabel) : TarType → Option Extraction
  | .file content => if l = .refused then s.osError c else s.makefile job c content
  | .dir => if l = .refused then s.osError c else s.makedir job c
  | .symlink linkname => if l = .refused then s.makeCopy job c else s.symlink job c linkname
  | .hardlink linkname =>
    -- `_link_target` is an attribute that `extract` sets
    if s.next ≤ c.member then s.makeCopy job c
    else if job.linkTargetExists s.fs linkname then
      if l = .refused ∨ namesDir linkname then s.makeCopy job c else s.hardlink job c linkname
    else s.tryCopy job c

/-- One step of a call. -/
def runCall (job : TarJob) (s : Extraction) (c : TarCall) (l : TarLabel) : Option Extraction :=
  match c.phase with
  | .upper =>
    if s.fs.pathExists job.cwd c.upperdirs then some (s.goOn c .make)
    else
      -- the components in front of the first that is missing exist
      ((List.range (c.upperdirs.parts.length + 1)).find? fun count =>
        !s.fs.pathExists job.cwd (takePath c.upperdirs count)).map fun count =>
          s.goOn c (.mkdirs count)
  | .mkdirs count => if l = .refused then s.osError c else s.mkdir job c count
  | .make => job.members[c.member]?.bind fun m => s.make job c l m.type

def step (job : TarJob) (s : Extraction) (l : TarLabel) : Option Extraction :=
  match s.call with
  | none =>
    job.members[s.next]?.map fun m =>
      { s with
        next := s.next + 1
        call := some { member := s.next, path := job.path m, dot := endsInDot m.name } }
  | some c => s.runCall job c l

end Extraction

namespace TarJob

/-- The extractions that `_safe_extractall` begins with this tree. -/
def system (job : TarJob) (fs : FileSystem) (root : List String) :
    Transition.System Extraction TarLabel :=
  ⟨fun s => job.Accepted fs root ∧ s = { fs }, Extraction.step job⟩

/-- `_safe_extractall` returns. -/
def Returned (job : TarJob) (s : Extraction) : Prop :=
  s.call = none ∧ job.members.length ≤ s.next

instance (job : TarJob) (s : Extraction) : Decidable (job.Returned s) :=
  inferInstanceAs (Decidable (_ ∧ _))

/-- Nothing outside the directory was created, overwritten, removed or hard-linked. -/
structure Confined (fs : FileSystem) (root : List String) (s : Extraction) : Prop where
  touched : ∀ q ∈ s.touched, root <+: q
  frame : ∀ q, ¬ root <+: q → s.fs.lookup q = fs.lookup q

/-- The path leads into the directory. -/
def leadsInto (job : TarJob) (fs : FileSystem) (root : List String) (p : PurePath) : Bool :=
  (fs.realpath job.cwd p).any fun q => root <+: q

/-- The member passes its check on this tree, the target of a hard link taken against
`dest`. The directory that a symbolic link is made in is in the directory, too. -/
def passes (job : TarJob) (fs : FileSystem) (root : List String) (path : PurePath)
    (m : TarMember) : Bool :=
  match m.type with
  | .file _ | .dir => job.check fs root path m = .ok ()
  | .symlink _ => job.check fs root path m = .ok () && job.leadsInto fs root (parentPath path)
  | .hardlink linkname =>
    job.leadsInto fs root path && job.leadsInto fs root (parentPath (job.linkTarget linkname))

/-- What the call is about to make passes on the tree as it is now: the member, or a
directory above it. -/
def rechecked (job : TarJob) (root : List String) (s : Extraction) : Bool :=
  s.call.all fun c =>
    match c.phase with
    | .upper => true
    | .mkdirs count =>
      (s.fs.entryOf job.cwd (takePath c.upperdirs count)).all fun q =>
        s.fs.lookup q ≠ none || job.leadsInto s.fs root (takePath c.upperdirs count)
    | .make => job.members[c.member]?.all fun m => job.passes s.fs root c.path m

end TarJob

-- ════════════════════════════════════════════════════════════════════════
-- What a step touches
-- ════════════════════════════════════════════════════════════════════════

namespace Extraction

variable {job : TarJob} {fs : FileSystem} {root q : List String} {s t : Extraction} {c : TarCall}
  {l : TarLabel}

/-- The step changes nothing outside the directory. -/
structure Stays (root : List String) (s t : Extraction) : Prop where
  touched : ∀ q ∈ t.touched, q ∈ s.touched ∨ root <+: q
  frame : ∀ q, ¬ root <+: q → t.fs.lookup q = s.fs.lookup q

theorem Stays.of_same (hfs : t.fs = s.fs) (htouched : t.touched = s.touched) : Stays root s t where
  touched q hq := .inl (htouched ▸ hq)
  frame q _ := by rw [hfs]

theorem Stays.touch {locations : List (List String)} (hin : ∀ q ∈ locations, root <+: q)
    (hfs : ∀ q, ¬ root <+: q → fs.lookup q = s.fs.lookup q) : Stays root s (s.touch fs locations) where
  touched q hq := (List.mem_append.mp hq).symm.imp_right (hin q)
  frame := hfs

/-- One entry is written. -/
theorem Stays.put {x : FileNode} {locations : List (List String)} (h : s.fs.put q x = some fs)
    (hq : root <+: q) (hin : ∀ q ∈ locations, root <+: q) :
    Stays root s (s.touch fs locations) := by
  refine .touch hin fun r hr => ?_
  rw [FileSystem.lookup_of_put h, if_neg]
  rintro rfl
  exact hr hq

theorem Stays.goOn {phase : TarPhase} (h : Stays root s t) : Stays root s (t.goOn c phase) :=
  ⟨h.touched, h.frame⟩

theorem Stays.done (h : Stays root s t) : Stays root s t.done := ⟨h.touched, h.frame⟩

theorem stays_of_osError (h : s.osError c = some t) : Stays root s t := by
  unfold osError at h
  split at h <;> cases h
  exact .of_same rfl rfl

theorem stays_of_makeCopy (h : s.makeCopy job c = some t) : Stays root s t := by
  unfold makeCopy at h
  split at h <;> cases h
  · exact .of_same rfl rfl
  · exact .of_same rfl rfl

theorem stays_of_tryCopy (h : s.tryCopy job c = some t) : Stays root s t := by
  unfold tryCopy at h
  split at h
  · cases h
    exact .of_same rfl rfl
  · split_ifs at h
    cases h
    exact .of_same rfl rfl

theorem prefix_of_leadsInto {p : PurePath} (h : job.leadsInto s.fs root p)
    (hp : s.fs.realpath job.cwd p = some q) : root <+: q := by
  rw [TarJob.leadsInto, hp] at h
  exact of_decide_eq_true h

/-- What passes the check leads into the directory. -/
theorem leadsInto_of_check {p : PurePath} {m : TarMember}
    (h : job.check s.fs root p m = .ok ()) : job.leadsInto s.fs root p := by
  unfold TarJob.check at h
  split at h
  · cases h
  · next target htarget =>
    rw [TarJob.leadsInto, htarget]
    split_ifs at h with hin
    exact decide_eq_true hin

theorem stays_of_fileExists {count : Nat} (h : s.fileExists c count = some t) :
    Stays root s t := by
  unfold fileExists at h
  split_ifs at h
  · cases h
    exact .goOn (.of_same rfl rfl)
  · exact stays_of_osError h

theorem stays_of_mkdir {count : Nat} (h : s.mkdir job c count = some t)
    (hin : ∀ q, s.fs.entryOf job.cwd (takePath c.upperdirs count) = some q →
      s.fs.lookup q = none → job.leadsInto s.fs root (takePath c.upperdirs count)) :
    Stays root s t := by
  simp only [mkdir] at h
  split at h
  · next q hq =>
    by_cases hnone : s.fs.lookup q = none
    · rw [if_pos hnone] at h
      split at h
      · next fs hfs =>
        cases h
        have hreal := FileSystem.realpath_of_entryOf hq fun target => by simp [hnone]
        have hroot := prefix_of_leadsInto (hin q hq hnone) hreal
        exact .goOn (.put hfs hroot fun r hr => by rwa [List.mem_singleton.mp hr])
      · exact stays_of_osError h
    · rw [if_neg hnone] at h
      exact stays_of_fileExists h
  · split_ifs at h
    · exact stays_of_fileExists h
    · exact stays_of_osError h

theorem stays_of_makefile {content : List UInt8} (h : s.makefile job c content = some t)
    (hin : job.leadsInto s.fs root c.path) : Stays root s t := by
  unfold makefile at h
  split at h
  · next q hq =>
    split_ifs at hq
    split at h
    · next fs hfs =>
      cases h
      have hroot := prefix_of_leadsInto hin (FileSystem.realpath_of_openAt hq)
      exact .done (.put hfs hroot fun r hr => by rwa [List.mem_singleton.mp hr])
    · exact stays_of_osError h
  · exact stays_of_osError h

theorem entryOf_of_entry (h : c.entry job.cwd s.fs = some q) :
    s.fs.entryOf job.cwd c.path = some q := by
  unfold TarCall.entry at h
  split_ifs at h
  exact h

/-- A new entry stands where its path leads. -/
theorem prefix_of_entry (h : c.entry job.cwd s.fs = some q) (hnone : s.fs.lookup q = none)
    (hin : job.leadsInto s.fs root c.path) : root <+: q :=
  prefix_of_leadsInto hin
    (FileSystem.realpath_of_entryOf (entryOf_of_entry h) fun target => by simp [hnone])

/-- An entry stands in the directory that it is an entry of. -/
theorem prefix_of_parent {p : PurePath} (h : s.fs.entryOf job.cwd p = some q)
    (hin : job.leadsInto s.fs root (parentPath p)) : root <+: q := by
  obtain ⟨e, he, hpre⟩ := FileSystem.realpath_dir_of_entryOf (p := p) (q := parentPath p) rfl rfl h
  exact (prefix_of_leadsInto hin he).trans hpre

theorem stays_of_makedir (h : s.makedir job c = some t)
    (hin : job.leadsInto s.fs root c.path) : Stays root s t := by
  unfold makedir at h
  split at h
  · next q hq =>
    split_ifs at h with hnone
    · split at h
      · next fs hfs =>
        cases h
        have hroot := prefix_of_entry hq hnone hin
        exact .done (.put hfs hroot fun r hr => by rwa [List.mem_singleton.mp hr])
      · exact stays_of_osError h
    · cases h
      exact .done (.of_same rfl rfl)
  · cases h
    exact .done (.of_same rfl rfl)

theorem stays_of_symlink {linkname : String} (h : s.symlink job c linkname = some t)
    (hin : job.leadsInto s.fs root (parentPath c.path)) : Stays root s t := by
  unfold symlink at h
  split at h
  · next q hq =>
    have hroot : root <+: q := prefix_of_parent (entryOf_of_entry hq) hin
    have hone : ∀ r ∈ [q], root <+: r := fun r hr => by rwa [List.mem_singleton.mp hr]
    split at h
    · split_ifs at h
      · exact stays_of_makeCopy h
      · split at h
        · next fs hfs =>
          cases h
          exact .done (.put hfs hroot hone)
        · exact stays_of_makeCopy h
    · exact stays_of_makeCopy h
    · next x hx =>
      cases h
      refine .touch hone fun r hr => ?_
      have hq : q ≠ [] := by
        rintro rfl
        exact hr (hroot.trans (List.nil_prefix))
      rw [FileSystem.lookup_erase hq, if_neg fun hpre => hr (hroot.trans hpre)]
  · exact stays_of_makeCopy h

theorem stays_of_hardlink {linkname : String} (h : s.hardlink job c linkname = some t)
    (hpath : job.leadsInto s.fs root c.path)
    (htarget : job.leadsInto s.fs root (parentPath (job.linkTarget linkname))) :
    Stays root s t := by
  unfold hardlink at h
  split at h
  · next source q hsource hq =>
    split at h
    · next x hx hnone =>
      split_ifs at h
      · exact stays_of_makeCopy h
      · split at h
        · next fs hfs =>
          cases h
          have hroot := prefix_of_entry hq hnone hpath
          refine .done (.put hfs hroot fun r hr => ?_)
          obtain rfl | hr := List.mem_cons.mp hr
          · exact prefix_of_parent hsource htarget
          · rwa [List.mem_singleton.mp hr]
        · exact stays_of_makeCopy h
    · exact stays_of_makeCopy h
  · exact stays_of_makeCopy h

/-- What is made is in the directory when the member passes at that moment. -/
theorem stays_of_make {m : TarMember} (h : s.make job c l m.type = some t)
    (hok : job.passes s.fs root c.path m) : Stays root s t := by
  unfold TarJob.passes at hok
  unfold make at h
  split at h
  · next content htype =>
    rw [htype] at hok
    have hin := leadsInto_of_check (of_decide_eq_true hok)
    split_ifs at h
    · exact stays_of_osError h
    · exact stays_of_makefile h hin
  · next htype =>
    rw [htype] at hok
    have hin := leadsInto_of_check (of_decide_eq_true hok)
    split_ifs at h
    · exact stays_of_osError h
    · exact stays_of_makedir h hin
  · next linkname htype =>
    rw [htype] at hok
    have hin := (Bool.and_eq_true_iff.mp hok).2
    split_ifs at h
    · exact stays_of_makeCopy h
    · exact stays_of_symlink h hin
  · next linkname htype =>
    rw [htype] at hok
    obtain ⟨hpath, htarget⟩ := Bool.and_eq_true_iff.mp hok
    split_ifs at h
    · exact stays_of_makeCopy h
    · exact stays_of_makeCopy h
    · exact stays_of_hardlink h hpath htarget
    · exact stays_of_tryCopy h

/-- **Step lemma**: a step on a member that passes its check then stays in the directory. -/
theorem stays_of_step (h : s.step job l = some t) (hok : job.rechecked root s) :
    Stays root s t := by
  unfold step at h
  split at h
  · obtain ⟨m, -, rfl⟩ := Option.map_eq_some_iff.mp h
    exact .of_same rfl rfl
  · next c hc =>
    rw [TarJob.rechecked, hc, Option.all_some] at hok
    unfold runCall at h
    cases hphase : c.phase with
    | upper =>
      simp only [hphase] at h
      split_ifs at h
      · cases h
        exact .goOn (.of_same rfl rfl)
      · obtain ⟨count, -, rfl⟩ := Option.map_eq_some_iff.mp h
        exact .goOn (.of_same rfl rfl)
    | mkdirs count =>
      simp only [hphase] at h hok
      split_ifs at h
      · exact stays_of_osError h
      · refine stays_of_mkdir h fun q hq hnone => ?_
        simpa [hq, hnone] using hok
    | make =>
      simp only [hphase] at h hok
      obtain ⟨m, hm, h⟩ := Option.bind_eq_some_iff.mp h
      rw [hm, Option.all_some] at hok
      exact stays_of_make h hok

end Extraction

namespace TarJob

variable {job : TarJob} {fs : FileSystem} {root : List String} {s : Extraction}

/-- **Confinement**: an extraction in which every member passes its check once more, when it
is about to be made, stays in the directory. -/
theorem confined_of_reach (h : (job.system fs root).Reach (fun s _ => job.rechecked root s) s) :
    Confined fs root s := by
  refine h.invariant (I := Confined fs root) ?_ fun s l t hs hok hstep => ?_
  · rintro s ⟨-, rfl⟩
    exact ⟨by simp, fun _ _ => rfl⟩
  · have hstays := Extraction.stays_of_step hstep hok
    refine ⟨fun q hq => (hstays.touched q hq).elim (hs.touched q) id, fun q hq => ?_⟩
    rw [hstays.frame q hq, hs.frame q hq]

/-- An empty directory and a file beside it. -/
def besideFile : FileSystem where
  locations := {["dest"], ["x"]}
  node q := if q = ["x"] then .file [] else .dir
  parent_dir := by decide +kernel

/-- A file and a hard link behind a link to their directory. -/
def currentVersion : TarJob where
  cwd := []
  dest := PurePath.parse "/dest"
  members :=
    [⟨"v1", .dir⟩, ⟨"current", .symlink "v1"⟩, ⟨"current/f", .file [1]⟩,
      ⟨"g", .hardlink "current/f"⟩]

theorem confined_currentVersion : ∃ s,
    (currentVersion.system besideFile ["dest"]).Reach
      (fun s _ => currentVersion.rechecked ["dest"] s) s ∧
    currentVersion.Returned s ∧ s.touched.length = 5 ∧ Confined besideFile ["dest"] s := by
  have hinit : (currentVersion.system besideFile ["dest"]).init { fs := besideFile } :=
    ⟨by decide +kernel, rfl⟩
  have hfinal : ((currentVersion.system besideFile ["dest"]).execGuarded
      (fun s _ => currentVersion.rechecked ["dest"] s) { fs := besideFile }
      (List.replicate 12 .go)).any
      (fun s => decide (currentVersion.Returned s ∧ s.touched.length = 5)) = true := by
    decide +kernel
  obtain ⟨s, hrun, hs⟩ := (Option.any_eq_true _ _).mp hfinal
  obtain ⟨hreturned, htouched⟩ := of_decide_eq_true hs
  have hreach := (Transition.System.Reach.init hinit).execGuarded hrun
  exact ⟨s, hreach, hreturned, htouched, confined_of_reach hreach⟩

/-- `_safe_extractall` returns and has left the directory. -/
def Escapes (job : TarJob) (fs : FileSystem) (root : List String) : Prop :=
  ∃ s, (job.system fs root).Reach Transition.System.anyStep s ∧ job.Returned s ∧
    ¬ Confined fs root s

theorem escapes_of_exec {l : List TarLabel} (haccepted : job.Accepted fs root)
    (h : ((job.system fs root).exec { fs } l).any (fun s => decide (job.Returned s ∧
      ∃ q ∈ s.touched, ¬ root <+: q)) = true) : job.Escapes fs root := by
  obtain ⟨s, hrun, hs⟩ := (Option.any_eq_true _ _).mp h
  obtain ⟨hreturned, q, hq, hout⟩ := of_decide_eq_true hs
  exact ⟨s, Transition.System.reach_of_exec ⟨haccepted, rfl⟩ hrun, hreturned,
    fun hconfined => hout (hconfined.touched q hq)⟩

/-- The target of a hard link is checked in the directory of the link, and looked up in
`dest`. -/
def linkOutside : TarJob where
  cwd := []
  dest := PurePath.parse "/dest"
  members := [⟨"a", .dir⟩, ⟨"a/l", .hardlink "../x"⟩]

/-- A symbolic link that the next member turns elsewhere, then a file in its place. -/
def linkChain : TarJob where
  cwd := []
  dest := PurePath.parse "/dest"
  members :=
    [⟨"a/b", .dir⟩, ⟨"t", .symlink "a/b/s/../../x"⟩, ⟨"a/b/s", .symlink ".."⟩, ⟨"t", .file [1]⟩]

/-- A directory outside that is created on the way back. -/
def thereAndBack : TarJob where
  cwd := []
  dest := PurePath.parse "/dest"
  members := [⟨"../other/../dest/new/f", .file []⟩]

/-- Members that pass the check and leave the directory. -/
theorem escapes_of_accepted : linkOutside.Escapes besideFile ["dest"] ∧
    linkChain.Escapes besideFile ["dest"] ∧ thereAndBack.Escapes besideFile ["dest"] := by
  refine ⟨escapes_of_exec (l := List.replicate 6 .go) ?_ ?_,
    escapes_of_exec (l := List.replicate 13 .go) ?_ ?_,
    escapes_of_exec (l := List.replicate 7 .go) ?_ ?_⟩
  all_goals decide +kernel

end TarJob

end OpenModel.Model
