import OpenModel.Lib.FileSteps
import OpenModel.Lib.Transition
import OpenModel.Model.FocReal

/-!
# A cache entry across crashes

One entry of the model cache over any number of calls of `ensure_model` and
`download_weights`. The disk is seen from the directory that the entry is in: the entry
itself, the staging directory beside it, `.tmp` with the tarball, and whatever else is
there. Removing a tree and extracting a tarball are sequences of steps on single entries;
the process can die between any two of them, and the next one finds what is left.

`is_model_complete` wants a configuration and a weight file, so a directory that loses
another file is still taken for complete. `download_weights` removes the old directory
file by file, and what a removal has left in the staging directory is extracted over.

## Main results

- `CacheSlot.isModelComplete_mono`: a removal completes nothing
- `CacheSlot.not_complete_of_put`: nor does a write of the client or the bridge
- `CacheSlot.Staged.step`: what the staging directory holds when it is renamed
- `CacheSlot.whole_of_reach`: what is complete is the full extraction of one tarball
- `CacheSlot.whole_of_managed`: with `ensure_model` alone, no removal meets a complete entry
-/

namespace OpenModel.Model

/-- `p` with one component, from the directory that everything is in. -/
def entryPath (name : String) (h : name ≠ "" ∧ name ≠ ".") : PurePath :=
  ⟨false, [name], by simpa using h⟩

/-- An entry of the cache: its name and its model, and what the entries of a tarball unpack to,
in their order. The directory `..` is there before any call. -/
structure CacheSlot where
  name : String
  modelId : String
  members : List UInt8 → List (List String × FileNode)
  ordinary : (name ≠ "" ∧ name ≠ ".") ∧ name ≠ ".."

/-- Where the call that runs stands. -/
inductive CachePc
  | idle
  /-- `ensure_model` removes what is not complete -/
  | evict
  /-- it asks FOC for the model -/
  | ask
  | mkdirs
  /-- waiting for the bridge -/
  | awaiting
  /-- emptying the staging directory -/
  | prepare (tarball : List UInt8)
  | mkStaging (tarball : List UInt8)
  /-- so many entries are extracted -/
  | extract (tarball : List UInt8) (count : Nat)
  /-- removing the old directory -/
  | swap (tarball : List UInt8)
  | rename (tarball : List UInt8)
  /-- `_cleanup_partial`, its first removal -/
  | cleanupStaging
  | cleanupDest
  /-- the `finally` -/
  | unlinkTmp
  deriving DecidableEq, Repr

/-- The disk, the call and the tarballs that were downloaded. -/
structure CacheRun where
  fs : FileSystem
  pc : CachePc := .idle
  downloads : List (List UInt8) := []

inductive CacheLabel
  | ensureModel
  | downloadWeights
  /-- a removal gets to an entry -/
  | removes (q : List String)
  /-- the bridge writes the temporary file -/
  | writes (content : List UInt8)
  /-- the operation succeeds, or the removal is over -/
  | go
  /-- FOC does not have the model -/
  | unavailable
  /-- the operation raises -/
  | raises
  /-- the task is cancelled in an `await` -/
  | cancelled
  | crash
  deriving DecidableEq, Repr

/-- What the entries of a tarball amount to. -/
def unpack (entries : List (List String × FileNode)) : List String → Option FileNode :=
  entries.foldl (fun tree entry => Function.update tree entry.1 (some entry.2))
    fun rel => if rel = [] then some .dir else none

namespace CacheSlot

def dest (c : CacheSlot) : PurePath := entryPath c.name c.ordinary.1

def stagingName (c : CacheSlot) : String := c.name ++ ".extracting"

theorem length_stagingName (c : CacheSlot) : c.stagingName.length = c.name.length + 11 := by
  rw [stagingName, String.length_append]
  rfl

def staging (c : CacheSlot) : PurePath :=
  entryPath c.stagingName (by
    constructor
    · intro h
      have hlen := c.length_stagingName
      rw [h] at hlen
      exact absurd hlen (by simp)
    · intro h
      have hlen := c.length_stagingName
      rw [h] at hlen
      have hone : ".".length = 1 := rfl
      omega)

def tmpDir : PurePath := entryPath ".tmp" (by decide)

def tmpName (c : CacheSlot) : String := "foc-model-" ++ dashSlashes c.modelId ++ ".tar.gz"

/-- The temporary file, if its directory is there. -/
def tmpFile (c : CacheSlot) (fs : FileSystem) : Option (List String) :=
  if fs.isDir [] tmpDir then (fs.resolve [] true tmpDir).map fun d => d ++ [c.tmpName] else none

/-- One step of `rmtree` on an entry of the directory, which a symbolic link is not. -/
def removeBelow (fs : FileSystem) (top : String) (q : List String) : Option FileSystem :=
  if fs.lookup [top] = some .dir ∧ [top] <+: q ∧ q ∈ fs.locations ∧ fs.IsLeaf q then
    some (fs.erase q)
  else none

/-- `rename` of `a` to `b` succeeds. -/
def Renames (fs : FileSystem) (a b : String) : Prop :=
  fs.lookup [a] ≠ none ∧ (fs.lookup [b] = none ∨
    if fs.lookup [a] = some .dir then fs.lookup [b] = some .dir ∧ fs.IsLeaf [b]
    else fs.lookup [b] ≠ some .dir)

instance (fs : FileSystem) (a b : String) : Decidable (Renames fs a b) :=
  inferInstanceAs (Decidable (_ ∧ _))

/-- `is_model_complete` of the entry. -/
def complete (c : CacheSlot) (fs : FileSystem) : Bool := isModelComplete fs [] c.dest

/-- The operation in front of which the call stands succeeds. -/
def go (c : CacheSlot) (s : CacheRun) : Option CacheRun :=
  match s.pc with
  | .idle => none
  | .evict => some { s with pc := .ask }
  | .ask => some { s with pc := .mkdirs }
  | .mkdirs =>
    if s.fs.isDir [] tmpDir then some { s with pc := .awaiting }
    else (s.fs.put [".tmp"] .dir).map fun fs => { s with pc := .awaiting, fs }
  | .awaiting =>
    match (c.tmpFile s.fs).bind s.fs.lookup with
    | some (.file tarball) =>
      some { s with pc := .prepare tarball, downloads := tarball :: s.downloads }
    | _ => none
  | .prepare tarball => some { s with pc := .mkStaging tarball }
  | .mkStaging tarball =>
    if s.fs.isDir [] c.staging then some { s with pc := .extract tarball 0 }
    else (s.fs.put [c.stagingName] .dir).map fun fs => { s with pc := .extract tarball 0, fs }
  | .extract tarball count =>
    match (c.members tarball)[count]? with
    | none => some { s with pc := .swap tarball }
    | some entry =>
      (s.fs.resolve [] true c.staging).bind fun base =>
        (s.fs.put (base ++ entry.1) entry.2).map fun fs =>
          { s with pc := .extract tarball (count + 1), fs }
  | .swap tarball => some { s with pc := .rename tarball }
  | .rename _ =>
    if Renames s.fs c.stagingName c.name then
      some { s with pc := .unlinkTmp, fs := s.fs.renameEntry c.stagingName c.name }
    else none
  | .cleanupStaging => some { s with pc := .cleanupDest }
  | .cleanupDest => some { s with pc := .unlinkTmp }
  | .unlinkTmp =>
    match c.tmpFile s.fs with
    | some q =>
      if s.fs.lookup q = some .dir then none else some { s with pc := .idle, fs := s.fs.erase q }
    | none => some { s with pc := .idle }

def step (c : CacheSlot) (s : CacheRun) : CacheLabel → Option CacheRun
  | .ensureModel =>
    if s.pc = .idle then
      if c.complete s.fs then some s
      else some { s with pc := if s.fs.pathExists [] c.dest then .evict else .ask }
    else none
  | .downloadWeights => if s.pc = .idle then some { s with pc := .mkdirs } else none
  | .removes q =>
    match s.pc with
    | .evict | .swap _ | .cleanupDest => (removeBelow s.fs c.name q).map fun fs => { s with fs }
    | .prepare _ | .cleanupStaging =>
      (removeBelow s.fs c.stagingName q).map fun fs => { s with fs }
    | _ => none
  | .writes content =>
    match s.pc with
    | .awaiting =>
      (c.tmpFile s.fs).bind fun q => (s.fs.put q (.file content)).map fun fs => { s with fs }
    | _ => none
  | .go => c.go s
  | .unavailable => if s.pc = .ask then some { s with pc := .idle } else none
  | .raises =>
    match s.pc with
    | .ask | .mkdirs | .unlinkTmp => some { s with pc := .idle }
    | .awaiting | .mkStaging _ | .extract _ _ | .rename _ => some { s with pc := .cleanupStaging }
    | _ => none
  | .cancelled =>
    match s.pc with
    | .ask => some { s with pc := .idle }
    | .awaiting => some { s with pc := .unlinkTmp }
    | _ => none
  | .crash => some { s with pc := .idle }

/-- The runs over a directory that the entry is not in. -/
def system (c : CacheSlot) : Transition.System CacheRun CacheLabel where
  init s := s.fs.pathExists [] c.dest = false ∧ s.pc = .idle ∧ s.downloads = []
  step := c.step

/-- The entry is the full extraction of a tarball. -/
def Whole (c : CacheSlot) (s : CacheRun) : Prop :=
  ∃ tarball ∈ s.downloads, ∀ rel, s.fs.lookup (c.name :: rel) = unpack (c.members tarball) rel

end CacheSlot

-- ════════════════════════════════════════════════════════════════════════
-- Completeness
-- ════════════════════════════════════════════════════════════════════════

section Completeness

variable {fs fs' : FileSystem} {cwd q : List String} {p : PurePath} {x : FileNode} {n : String}

theorem isModelComplete_eq_true_iff : isModelComplete fs cwd p = true ↔
    fs.isDir cwd p = true ∧ fs.pathExists cwd (p.join (PurePath.parse "config.json")) = true ∧
      ∃ suffix ∈ weightSuffixes, fs.anyChild cwd p suffix = true := by
  rw [isModelComplete]
  cases fs.isDir cwd p <;>
    cases fs.pathExists cwd (p.join (PurePath.parse "config.json")) <;> simp

/-- **Monotonicity**: what is complete in a part of a tree is complete in the whole. -/
theorem isModelComplete_mono (hpart : fs.Part fs') (h : isModelComplete fs cwd p = true) :
    isModelComplete fs' cwd p = true := by
  rw [isModelComplete_eq_true_iff] at h ⊢
  obtain ⟨hdir, hconfig, suffix, hsuffix, hany⟩ := h
  exact ⟨FileSystem.isDir_mono hpart hdir, FileSystem.pathExists_mono hpart hconfig, suffix,
    hsuffix, FileSystem.anyChild_mono hpart hany⟩

theorem resolve_entryPath {h : n ≠ "" ∧ n ≠ "."} (hn : n ≠ "..")
    (hlink : (fs.lookup [n]).any FileNode.isSymlink = false) :
    fs.resolve [] true (entryPath n h) = if fs.lookup [n] = none then none else some [n] := by
  have hwalk : fs.walk true 40 [] [n] = if fs.lookup [n] = none then none else some [n] :=
    FileSystem.walk_singleton hn hlink
  exact hwalk

theorem isDir_entryPath {h : n ≠ "" ∧ n ≠ "."} (hn : n ≠ "..")
    (hlink : (fs.lookup [n]).any FileNode.isSymlink = false) :
    fs.isDir [] (entryPath n h) = true ↔ fs.lookup [n] = some .dir := by
  rw [FileSystem.isDir, resolve_entryPath hn hlink, beq_iff_eq]
  split_ifs with hnone
  · simp [hnone]
  · rfl

end Completeness

namespace CacheSlot

variable {c : CacheSlot} {fs fs' : FileSystem} {q : List String} {x : FileNode}

/-- The entry or its configuration is a symbolic link. -/
def Linked (c : CacheSlot) (fs : FileSystem) : Prop :=
  (fs.lookup [c.name]).any FileNode.isSymlink = true ∨
    (fs.lookup [c.name, "config.json"]).any FileNode.isSymlink = true

instance (c : CacheSlot) (fs : FileSystem) : Decidable (c.Linked fs) :=
  inferInstanceAs (Decidable (_ ∨ _))

/-- Without links, completeness is about what is directly in the directory. -/
theorem complete_iff (h : ¬ c.Linked fs) : c.complete fs = true ↔
    fs.lookup [c.name] = some .dir ∧ fs.lookup [c.name, "config.json"] ≠ none ∧
      ∃ suffix ∈ weightSuffixes, ∃ n, fs.lookup [c.name, n] ≠ none ∧
        suffix.toList <:+ n.toList := by
  obtain ⟨hname, hconfig⟩ := not_or.mp h
  rw [Bool.not_eq_true] at hname hconfig
  have hdir : fs.isDir [] c.dest = true ↔ fs.lookup [c.name] = some .dir :=
    isDir_entryPath c.ordinary.2 hname
  rw [complete, isModelComplete_eq_true_iff, hdir]
  refine and_congr_right fun hisdir => and_congr ?_ ?_
  · have hparts : (c.dest.join (PurePath.parse "config.json")).parts = [c.name, "config.json"] :=
      (c.dest.join_parse_of_not_mem (by decide)).2
    have habs : (c.dest.join (PurePath.parse "config.json")).absolute = false :=
      (c.dest.join_parse_of_not_mem (by decide)).1
    have hwalk : fs.resolve [] true (c.dest.join (PurePath.parse "config.json")) =
        fs.walk true 40 [c.name] ["config.json"] := by
      rw [FileSystem.resolve, hparts, habs]
      exact FileSystem.walk_cons_of_dir c.ordinary.2 hisdir
    rw [FileSystem.pathExists, hwalk, FileSystem.walk_singleton (by decide) hconfig]
    split_ifs with hnone
    · simpa using hnone
    · simpa using hnone
  · have hsome : fs.resolve [] true c.dest = some [c.name] := by
      rw [dest, resolve_entryPath c.ordinary.2 hname, if_neg (by simp [hisdir])]
    simp only [FileSystem.anyChild, hsome, decide_eq_true_eq, FileSystem.mem_children_iff,
      List.cons_append, List.nil_append]

/-- A write that is not into the entry's directory, or makes the directory, or is the bridge's. -/
def Neutral (c : CacheSlot) (fs : FileSystem) (q : List String) (x : FileNode) : Prop :=
  q.head? = some c.name →
    (q = [c.name] ∧ fs.lookup q = none ∧ x = .dir) ∨
      (q.getLast? = some c.tmpName ∧ ∃ content, x = .file content)

theorem getLast?_tmpName (c : CacheSlot) : c.tmpName.toList.getLast? = some 'z' := by
  have hlast : ".tar.gz".toList.getLast? = some 'z' := by decide
  rw [tmpName, String.toList_append, List.getLast?_append, hlast]
  rfl

theorem not_suffix_tmpName (c : CacheSlot) : ∀ suffix ∈ weightSuffixes,
    ¬ suffix.toList <:+ c.tmpName.toList := by
  rintro suffix hsuffix ⟨front, hfront⟩
  have hlast := congrArg List.getLast? hfront
  rw [c.getLast?_tmpName] at hlast
  simp only [weightSuffixes, List.mem_cons, List.not_mem_nil, or_false] at hsuffix
  obtain rfl | rfl | rfl | rfl | rfl := hsuffix <;> simp at hlast

theorem tmpName_ne_config (c : CacheSlot) : c.tmpName ≠ "config.json" := by
  intro h
  have hlast := c.getLast?_tmpName
  rw [h] at hlast
  exact absurd hlast (by decide)

/-- **Writes** of the client and the bridge complete nothing. -/
theorem not_complete_of_put (hput : fs.put q x = some fs') (hneutral : c.Neutral fs q x)
    (hlinked : ¬ c.Linked fs) (h : c.complete fs = false) : c.complete fs' = false := by
  have hlook := FileSystem.lookup_of_put hput
  have hx : q.head? = some c.name → x.isSymlink = false := by
    intro hhead
    obtain ⟨-, -, rfl⟩ | ⟨-, content, rfl⟩ := hneutral hhead
    · rfl
    · rfl
  have hlinked' : ¬ c.Linked fs' := by
    have hsame : ∀ r : List String, r.head? = some c.name → (fs.lookup r).any FileNode.isSymlink = false →
        (fs'.lookup r).any FileNode.isSymlink = false := by
      intro r hr hfs
      rw [hlook]
      split_ifs with hrq
      · simpa using hx (hrq ▸ hr)
      · exact hfs
    simp only [Linked, not_or, Bool.not_eq_true] at hlinked ⊢
    exact ⟨hsame _ rfl hlinked.1, hsame _ rfl hlinked.2⟩
  rw [← Bool.not_eq_true, complete_iff hlinked] at h
  rw [← Bool.not_eq_true, complete_iff hlinked']
  rintro ⟨hdir, hconfig, suffix, hsuffix, n, hn, hend⟩
  rw [hlook] at hdir hconfig hn
  by_cases hhead : q.head? = some c.name
  · obtain ⟨rfl, hnone, rfl⟩ | ⟨hlast, content, rfl⟩ := hneutral hhead
    · -- nothing is below a directory that was not there
      rw [if_neg (by simp)] at hconfig
      have hparent := FileSystem.lookup_dropLast hconfig
      simp only [List.dropLast_cons_cons, List.dropLast_singleton] at hparent
      rw [hnone] at hparent
      simp at hparent
    · rw [if_neg (by rintro rfl; simp at hdir)] at hdir
      rw [if_neg (by rintro rfl; exact c.tmpName_ne_config (by simpa using hlast.symm))] at hconfig
      rw [if_neg] at hn
      · exact h ⟨hdir, hconfig, suffix, hsuffix, n, hn, hend⟩
      · rintro rfl
        obtain rfl : n = c.tmpName := by simpa using hlast
        exact c.not_suffix_tmpName suffix hsuffix hend
  · have hne : ∀ r : List String, r.head? = some c.name → r ≠ q := by
      rintro r hr rfl
      exact hhead hr
    rw [if_neg (hne _ rfl)] at hdir hconfig hn
    exact h ⟨hdir, hconfig, suffix, hsuffix, n, hn, hend⟩

end CacheSlot

-- ════════════════════════════════════════════════════════════════════════
-- The staging directory
-- ════════════════════════════════════════════════════════════════════════

section Unpack

variable {entries : List (List String × FileNode)} {entry : List String × FileNode}
  {rel : List String} {k : Nat}

theorem unpack_of_not_mem (h : rel ∉ entries.map Prod.fst) :
    unpack entries rel = if rel = [] then some .dir else none := by
  have hfold : ∀ tree : List String → Option FileNode,
      entries.foldl (fun (tree : List String → Option FileNode) entry =>
        Function.update tree entry.1 (some entry.2)) tree rel = tree rel := by
    induction entries with
    | nil => exact fun _ => rfl
    | cons e es ih =>
      obtain ⟨hne, hnot⟩ := not_or.mp (mt List.mem_cons.mpr h)
      intro tree
      rw [List.foldl_cons, ih hnot, Function.update_of_ne hne]
  exact hfold _

theorem unpack_take_succ (h : entries[k]? = some entry) :
    unpack (entries.take (k + 1)) =
      Function.update (unpack (entries.take k)) entry.1 (some entry.2) := by
  rw [List.take_add_one, h, unpack, List.foldl_append]
  rfl

end Unpack

namespace CacheSlot

variable {c : CacheSlot} {s t : CacheRun} {l : CacheLabel} {fs fs' : FileSystem}
  {entries : List (List String × FileNode)} {entry : List String × FileNode} {k : Nat}
  {q : List String} {x : FileNode}

theorem stagingName_ne (c : CacheSlot) : c.stagingName ≠ c.name ∧ c.stagingName ≠ ".." := by
  have hlen := c.length_stagingName
  constructor
  · intro h
    rw [h] at hlen
    omega
  · intro h
    have htwo : "..".length = 2 := rfl
    rw [h] at hlen
    omega

/-- The first `k` entries are in the staging directory, and nothing that no entry writes. -/
structure PartlyStaged (c : CacheSlot) (fs : FileSystem) (entries : List (List String × FileNode))
    (k : Nat) : Prop where
  dir : fs.lookup [c.stagingName] = some .dir
  done : ∀ rel ∈ (entries.take k).map Prod.fst,
    fs.lookup (c.stagingName :: rel) = unpack (entries.take k) rel
  rest : ∀ rel, fs.lookup (c.stagingName :: rel) ≠ none → rel = [] ∨ rel ∈ entries.map Prod.fst

/-- One entry is written. -/
theorem PartlyStaged.put (h : c.PartlyStaged fs entries k) (hentry : entries[k]? = some entry)
    (hput : fs.put (c.stagingName :: entry.1) entry.2 = some fs') :
    c.PartlyStaged fs' entries (k + 1) := by
  have hlook := FileSystem.lookup_of_put hput
  refine ⟨?_, ?_, ?_⟩
  · rw [hlook]
    split_ifs with hroot
    · -- the directory itself is only written as one
      have hkind := (FileSystem.accepts_of_put hput).2.2 .dir
      rw [← hroot] at hkind
      rw [(hkind h.dir).mp rfl]
    · exact h.dir
  · intro rel hrel
    rw [hlook, unpack_take_succ hentry]
    by_cases heq : rel = entry.1
    · rw [heq, if_pos rfl, Function.update_self]
    · rw [if_neg (by simpa using heq), Function.update_of_ne heq]
      rw [List.take_add_one, hentry, List.map_append, List.mem_append] at hrel
      exact h.done rel (hrel.resolve_right (by simpa using heq))
  · intro rel hrel
    rw [hlook] at hrel
    split_ifs at hrel with heq
    · obtain rfl : rel = entry.1 := by simpa using heq
      exact Or.inr (List.mem_map_of_mem (List.mem_of_getElem? hentry))
    · exact h.rest rel hrel

/-- **Extraction**: when all entries are written, the staging directory is what they unpack to. -/
theorem PartlyStaged.unpacked (h : c.PartlyStaged fs entries k) (hend : entries[k]? = none)
    (rel : List String) : fs.lookup (c.stagingName :: rel) = unpack entries rel := by
  have htake : entries.take k = entries := List.take_of_length_le (List.getElem?_eq_none_iff.mp hend)
  by_cases hmem : rel ∈ entries.map Prod.fst
  · have hdone := h.done rel
    rw [htake] at hdone
    exact hdone hmem
  · rw [unpack_of_not_mem hmem]
    split_ifs with hroot
    · rw [hroot]
      exact h.dir
    · by_contra hne
      exact (h.rest rel hne).elim hroot hmem

/-- What the removal has left in the staging directory is written again: it is a directory that
has nothing but entries of the tarball, and no links. -/
def Fresh (c : CacheSlot) (fs : FileSystem) (tarball : List UInt8) : Prop :=
  (fs.lookup [c.stagingName] = none ∨ fs.lookup [c.stagingName] = some .dir) ∧
    ∀ q ∈ fs.locations, q.head? = some c.stagingName → q.tail = [] ∨
      (q.tail ∈ (c.members tarball).map Prod.fst ∧
        (fs.lookup q).any FileNode.isSymlink = false)

instance (c : CacheSlot) (fs : FileSystem) (tarball : List UInt8) :
    Decidable (c.Fresh fs tarball) :=
  inferInstanceAs (Decidable (_ ∧ ∀ q ∈ fs.locations, _))

theorem Fresh.rest {tarball : List UInt8} (h : c.Fresh fs tarball) (rel : List String)
    (hrel : fs.lookup (c.stagingName :: rel) ≠ none) :
    rel = [] ∨ rel ∈ (c.members tarball).map Prod.fst := by
  rw [FileSystem.lookup_ne_none_iff (by simp)] at hrel
  exact (h.2 _ hrel rfl).imp_right And.left

/-- The staging directory was there. -/
theorem Fresh.partlyStaged {tarball : List UInt8} (h : c.Fresh fs tarball)
    (hdir : fs.isDir [] c.staging = true) : c.PartlyStaged fs (c.members tarball) 0 := by
  have hlink : (fs.lookup [c.stagingName]).any FileNode.isSymlink = false := by
    obtain hnone | hisdir := h.1
    · rw [hnone]
      rfl
    · rw [hisdir]
      rfl
  exact ⟨(isDir_entryPath c.stagingName_ne.2 hlink).mp hdir, by simp, h.rest⟩

/-- It is made. -/
theorem Fresh.partlyStaged_put {tarball : List UInt8} (h : c.Fresh fs tarball)
    (hput : fs.put [c.stagingName] .dir = some fs') :
    c.PartlyStaged fs' (c.members tarball) 0 := by
  have hlook := FileSystem.lookup_of_put hput
  refine ⟨by rw [hlook, if_pos rfl], by simp, fun rel hrel => ?_⟩
  rw [hlook] at hrel
  split_ifs at hrel with hroot
  · exact Or.inl (by simpa using hroot)
  · exact h.rest rel hrel

/-- What is known of the staging directory. -/
def Staged (c : CacheSlot) (s : CacheRun) : Prop :=
  match s.pc with
  | .prepare tarball | .mkStaging tarball => tarball ∈ s.downloads
  | .extract tarball count =>
    tarball ∈ s.downloads ∧ c.PartlyStaged s.fs (c.members tarball) count
  | .swap tarball | .rename tarball =>
    tarball ∈ s.downloads ∧
      ∀ rel, s.fs.lookup (c.stagingName :: rel) = unpack (c.members tarball) rel
  | _ => True

theorem removeBelow_eq_some {top : String} (h : removeBelow fs top q = some fs') :
    fs' = fs.erase q ∧ ∃ rest, q = top :: rest := by
  rw [removeBelow] at h
  split_ifs at h with hcond
  obtain ⟨-, ⟨rest, rfl⟩, -, -⟩ := hcond
  exact ⟨(Option.some.inj h).symm, rest, rfl⟩

/-- A removal in the one entry leaves another alone. -/
theorem lookup_erase_of_ne {top other : String} (hne : top ≠ other) (rest rel : List String) :
    (fs.erase (top :: rest)).lookup (other :: rel) = fs.lookup (other :: rel) := by
  rw [FileSystem.lookup_erase (by simp), if_neg]
  intro hpre
  exact hne (by simpa using (List.cons_prefix_cons.mp hpre).1)

/-- The place that is extracted to. -/
theorem PartlyStaged.resolve (h : c.PartlyStaged fs entries k) :
    fs.resolve [] true c.staging = some [c.stagingName] := by
  rw [staging, resolve_entryPath c.stagingName_ne.2 (by rw [h.dir]; rfl), if_neg (by simp [h.dir])]

/-- **Success** of an operation keeps what is known. -/
theorem Staged.go (hfresh : ∀ tarball, s.pc = .mkStaging tarball → c.Fresh s.fs tarball)
    (h : c.Staged s) (hstep : c.go s = some t) : c.Staged t := by
  cases hpc : s.pc with
  | idle => simp [CacheSlot.go, hpc] at hstep
  | evict | ask | cleanupStaging | cleanupDest =>
    simp only [CacheSlot.go, hpc, Option.some.injEq] at hstep
    rw [← hstep]
    trivial
  | mkdirs =>
    simp only [CacheSlot.go, hpc] at hstep
    split_ifs at hstep
    · rw [← Option.some.inj hstep]
      trivial
    · obtain ⟨fs, -, rfl⟩ := Option.map_eq_some_iff.mp hstep
      trivial
  | awaiting =>
    simp only [CacheSlot.go, hpc] at hstep
    split at hstep
    · rw [← Option.some.inj hstep]
      exact List.mem_cons_self
    · simp at hstep
  | prepare tarball =>
    simp only [CacheSlot.go, hpc, Option.some.injEq] at hstep
    rw [Staged, hpc] at h
    rw [← hstep]
    exact h
  | mkStaging tarball =>
    simp only [CacheSlot.go, hpc] at hstep
    rw [Staged, hpc] at h
    split_ifs at hstep with hdir
    · rw [← Option.some.inj hstep]
      exact ⟨h, (hfresh tarball hpc).partlyStaged hdir⟩
    · obtain ⟨fs, hput, rfl⟩ := Option.map_eq_some_iff.mp hstep
      exact ⟨h, (hfresh tarball hpc).partlyStaged_put hput⟩
  | extract tarball count =>
    simp only [CacheSlot.go, hpc] at hstep
    rw [Staged, hpc] at h
    obtain ⟨hmem, hpartly⟩ := h
    cases hentry : (c.members tarball)[count]? with
    | none =>
      rw [hentry] at hstep
      rw [← Option.some.inj hstep]
      exact ⟨hmem, hpartly.unpacked hentry⟩
    | some entry =>
      rw [hentry] at hstep
      simp only [hpartly.resolve, Option.bind_some] at hstep
      obtain ⟨fs, hput, rfl⟩ := Option.map_eq_some_iff.mp hstep
      exact ⟨hmem, hpartly.put hentry hput⟩
  | swap tarball =>
    simp only [CacheSlot.go, hpc, Option.some.injEq] at hstep
    rw [Staged, hpc] at h
    rw [← hstep]
    exact h
  | rename tarball =>
    simp only [CacheSlot.go, hpc] at hstep
    split_ifs at hstep
    rw [← Option.some.inj hstep]
    trivial
  | unlinkTmp =>
    simp only [CacheSlot.go, hpc] at hstep
    split at hstep
    · split_ifs at hstep
      rw [← Option.some.inj hstep]
      trivial
    · rw [← Option.some.inj hstep]
      trivial

/-- **Removals** do. -/
theorem Staged.removes (h : c.Staged s) (hstep : c.step s (.removes q) = some t) : c.Staged t := by
  have hdest : ∀ fs', removeBelow s.fs c.name q = some fs' →
      ∀ rel, fs'.lookup (c.stagingName :: rel) = s.fs.lookup (c.stagingName :: rel) := by
    intro fs' hremove rel
    obtain ⟨rfl, rest, rfl⟩ := removeBelow_eq_some hremove
    exact lookup_erase_of_ne c.stagingName_ne.1.symm rest rel
  cases hpc : s.pc with
  | evict | cleanupDest | cleanupStaging =>
    simp only [CacheSlot.step, hpc] at hstep
    obtain ⟨fs, -, rfl⟩ := Option.map_eq_some_iff.mp hstep
    trivial
  | swap tarball =>
    simp only [CacheSlot.step, hpc] at hstep
    obtain ⟨fs, hremove, rfl⟩ := Option.map_eq_some_iff.mp hstep
    rw [Staged, hpc] at h
    exact ⟨h.1, fun rel => (hdest fs hremove rel).trans (h.2 rel)⟩
  | prepare tarball =>
    simp only [CacheSlot.step, hpc] at hstep
    obtain ⟨fs, -, rfl⟩ := Option.map_eq_some_iff.mp hstep
    rw [Staged, hpc] at h
    exact h
  | _ => simp [CacheSlot.step, hpc] at hstep

-- ════════════════════════════════════════════════════════════════════════
-- What a step does to the disk
-- ════════════════════════════════════════════════════════════════════════

/-- The tarball that the step begins to extract. -/
def extracting (s : CacheRun) (l : CacheLabel) : Option (List UInt8) :=
  match l, s.pc with
  | .go, .mkStaging tarball => some tarball
  | _, _ => none

/-- The step renames the staging directory to the entry. -/
def swapsIn (s : CacheRun) (l : CacheLabel) : Bool :=
  match l, s.pc with
  | .go, .rename _ => true
  | _, _ => false

/-- The location that the step removes. -/
def erased (c : CacheSlot) (s : CacheRun) (l : CacheLabel) : Option (List String) :=
  match l, s.pc with
  | .removes q, _ => some q
  | .go, .unlinkTmp => c.tmpFile s.fs
  | _, _ => none

/-- Where the step writes, and what. -/
def written (c : CacheSlot) (s : CacheRun) (l : CacheLabel) : Option (List String × FileNode) :=
  match l, s.pc with
  | .writes content, .awaiting => (c.tmpFile s.fs).map fun q => (q, .file content)
  | .go, .mkdirs => if s.fs.isDir [] tmpDir then none else some ([".tmp"], .dir)
  | .go, .mkStaging _ => if s.fs.isDir [] c.staging then none else some ([c.stagingName], .dir)
  | .go, .extract tarball count =>
    (c.members tarball)[count]?.bind fun entry =>
      (s.fs.resolve [] true c.staging).map fun base => (base ++ entry.1, entry.2)
  | _, _ => none

inductive Effect (c : CacheSlot) (s : CacheRun) (l : CacheLabel) (t : CacheRun) : Prop
  | stays (h : t.fs = s.fs)
  | removes (q : List String) (hq : q ≠ []) (herased : q ∈ c.erased s l) (h : t.fs = s.fs.erase q)
  | writes (q : List String) (x : FileNode) (hwritten : (q, x) ∈ c.written s l)
      (hneutral : c.Neutral s.fs q x) (h : s.fs.put q x = some t.fs)
  | renames (hren : swapsIn s l = true)

theorem neutral_staging (rel : List String) : c.Neutral fs (c.stagingName :: rel) x := by
  intro hhead
  exact absurd (by simpa using hhead) c.stagingName_ne.1

theorem neutral_tmpDir (hdir : ¬ fs.isDir [] tmpDir = true) (hput : fs.put [".tmp"] .dir = some fs') :
    c.Neutral fs [".tmp"] .dir := by
  intro hhead
  obtain hname : ".tmp" = c.name := by simpa using hhead
  refine Or.inl ⟨by rw [hname], ?_, rfl⟩
  cases hl : fs.lookup [".tmp"] with
  | none => rfl
  | some y =>
    obtain rfl : y = .dir := ((FileSystem.accepts_of_put hput).2.2 y hl).mpr rfl
    exact absurd ((isDir_entryPath (by decide) (by rw [hl]; rfl)).mpr hl) hdir

theorem tmpFile_eq_some (h : c.tmpFile fs = some q) : ∃ d, q = d ++ [c.tmpName] := by
  rw [tmpFile] at h
  split_ifs at h
  obtain ⟨d, -, rfl⟩ := Option.map_eq_some_iff.mp h
  exact ⟨d, rfl⟩

theorem neutral_tmpFile (h : c.tmpFile fs = some q) (content : List UInt8) :
    c.Neutral fs q (.file content) := by
  obtain ⟨d, rfl⟩ := tmpFile_eq_some h
  exact fun _ => Or.inr ⟨by simp, content, rfl⟩

theorem effect_of_go (h : c.Staged s) (hstep : c.go s = some t) :
    s.downloads ⊆ t.downloads ∧ c.Effect s .go t := by
  cases hpc : s.pc with
  | idle => simp [CacheSlot.go, hpc] at hstep
  | evict | ask | prepare tarball | swap tarball | cleanupStaging | cleanupDest =>
    simp only [CacheSlot.go, hpc, Option.some.injEq] at hstep
    rw [← hstep]
    exact ⟨List.Subset.refl _, .stays rfl⟩
  | mkdirs =>
    simp only [CacheSlot.go, hpc] at hstep
    split_ifs at hstep with hdir
    · rw [← Option.some.inj hstep]
      exact ⟨List.Subset.refl _, .stays rfl⟩
    · obtain ⟨fs, hput, rfl⟩ := Option.map_eq_some_iff.mp hstep
      exact ⟨List.Subset.refl _, .writes _ _ (by simp [written, hpc, hdir])
        (neutral_tmpDir hdir hput) hput⟩
  | awaiting =>
    simp only [CacheSlot.go, hpc] at hstep
    split at hstep
    · rw [← Option.some.inj hstep]
      exact ⟨List.subset_cons_self _ _, .stays rfl⟩
    · simp at hstep
  | mkStaging tarball =>
    simp only [CacheSlot.go, hpc] at hstep
    split_ifs at hstep with hdir
    · rw [← Option.some.inj hstep]
      exact ⟨List.Subset.refl _, .stays rfl⟩
    · obtain ⟨fs, hput, rfl⟩ := Option.map_eq_some_iff.mp hstep
      exact ⟨List.Subset.refl _, .writes _ _ (by simp [written, hpc, hdir]) (neutral_staging [])
        hput⟩
  | extract tarball count =>
    simp only [CacheSlot.go, hpc] at hstep
    rw [Staged, hpc] at h
    split at hstep
    · rw [← Option.some.inj hstep]
      exact ⟨List.Subset.refl _, .stays rfl⟩
    · next entry hentry =>
      simp only [h.2.resolve, Option.bind_some] at hstep
      obtain ⟨fs, hput, rfl⟩ := Option.map_eq_some_iff.mp hstep
      exact ⟨List.Subset.refl _, .writes _ _ (by simp [written, hpc, hentry, h.2.resolve])
        (neutral_staging _) hput⟩
  | rename tarball =>
    simp only [CacheSlot.go, hpc] at hstep
    split_ifs at hstep
    rw [← Option.some.inj hstep]
    exact ⟨List.Subset.refl _, .renames (by simp [swapsIn, hpc])⟩
  | unlinkTmp =>
    simp only [CacheSlot.go, hpc] at hstep
    split at hstep
    · next q hq =>
      split_ifs at hstep
      rw [← Option.some.inj hstep]
      have herased : q ∈ c.erased s .go := by simp [erased, hpc, hq]
      obtain ⟨d, rfl⟩ := tmpFile_eq_some hq
      exact ⟨List.Subset.refl _, .removes _ (by simp) herased rfl⟩
    · rw [← Option.some.inj hstep]
      exact ⟨List.Subset.refl _, .stays rfl⟩

theorem effect_of_removes (hstep : c.step s (.removes q) = some t) :
    s.downloads ⊆ t.downloads ∧ c.Effect s (.removes q) t := by
  have hremove : ∀ top fs', removeBelow s.fs top q = some fs' →
      q ≠ [] ∧ fs' = s.fs.erase q := by
    intro top fs' h
    obtain ⟨hfs, rest, rfl⟩ := removeBelow_eq_some h
    exact ⟨by simp, hfs⟩
  cases hpc : s.pc with
  | evict | swap tarball | cleanupDest | prepare tarball | cleanupStaging =>
    simp only [CacheSlot.step, hpc] at hstep
    obtain ⟨fs, hfs, rfl⟩ := Option.map_eq_some_iff.mp hstep
    obtain ⟨hq, herase⟩ := hremove _ fs hfs
    exact ⟨List.Subset.refl _, .removes q hq rfl herase⟩
  | _ => simp [CacheSlot.step, hpc] at hstep

/-- **One step** forgets no download and changes the disk in one of these ways. -/
theorem effect_of_step (h : c.Staged s) (hstep : c.step s l = some t) :
    s.downloads ⊆ t.downloads ∧ c.Effect s l t := by
  cases l with
  | go => exact effect_of_go h hstep
  | removes q => exact effect_of_removes hstep
  | writes content =>
    cases hpc : s.pc with
    | awaiting =>
      simp only [CacheSlot.step, hpc] at hstep
      obtain ⟨q, hq, hmap⟩ := Option.bind_eq_some_iff.mp hstep
      obtain ⟨fs, hput, rfl⟩ := Option.map_eq_some_iff.mp hmap
      exact ⟨List.Subset.refl _, .writes q _ (by simp [written, hpc, hq])
        (neutral_tmpFile hq content) hput⟩
    | _ => simp [CacheSlot.step, hpc] at hstep
  | ensureModel =>
    simp only [CacheSlot.step] at hstep
    split_ifs at hstep
    all_goals
      rw [← Option.some.inj hstep]
      exact ⟨List.Subset.refl _, .stays rfl⟩
  | downloadWeights | unavailable =>
    simp only [CacheSlot.step] at hstep
    split_ifs at hstep
    rw [← Option.some.inj hstep]
    exact ⟨List.Subset.refl _, .stays rfl⟩
  | raises | cancelled =>
    simp only [CacheSlot.step] at hstep
    split at hstep
    all_goals first
      | (rw [← Option.some.inj hstep]; exact ⟨List.Subset.refl _, .stays rfl⟩)
      | simp at hstep
  | crash =>
    rw [← Option.some.inj hstep]
    exact ⟨List.Subset.refl _, .stays rfl⟩

-- ════════════════════════════════════════════════════════════════════════
-- Complete entries
-- ════════════════════════════════════════════════════════════════════════

/-- Without a location of a complete entry that is removed, the entry is not complete. -/
def RemovalBreaks (c : CacheSlot) (fs : FileSystem) (q : List String) : Prop :=
  c.complete fs = true → q.head? = some c.name → fs.lookup q ≠ none →
    c.complete (fs.erase q) = false

instance (c : CacheSlot) (fs : FileSystem) (q : List String) : Decidable (c.RemovalBreaks fs q) :=
  inferInstanceAs (Decidable (_ → _ → _ → _))

/-- A write changes nothing in a complete entry, and does not complete an entry that is, or whose
configuration is, a link to where it writes. -/
def WriteSpares (c : CacheSlot) (fs : FileSystem) (q : List String) (x : FileNode) : Prop :=
  (c.complete fs = true → q.head? = some c.name → fs.lookup q = some x) ∧
    (c.complete fs = false → c.Linked fs → ∀ fs' ∈ fs.put q x, c.complete fs' = false)

instance (c : CacheSlot) (fs : FileSystem) (q : List String) (x : FileNode) :
    Decidable (c.WriteSpares fs q x) :=
  inferInstanceAs (Decidable ((_ → _ → _) ∧ (_ → _ → ∀ fs' ∈ fs.put q x, _)))

/-- Nothing is extracted over what the tarball does not have, and a complete entry is neither
removed in part nor written to. -/
structure Careful (c : CacheSlot) (s : CacheRun) (l : CacheLabel) : Prop where
  fresh : ∀ tarball ∈ extracting s l, c.Fresh s.fs tarball
  removal : ∀ q ∈ c.erased s l, c.RemovalBreaks s.fs q
  write : ∀ w ∈ c.written s l, c.WriteSpares s.fs w.1 w.2

instance (c : CacheSlot) (s : CacheRun) (l : CacheLabel) : Decidable (c.Careful s l) :=
  decidable_of_iff
    ((∀ tarball ∈ extracting s l, c.Fresh s.fs tarball) ∧
      (∀ q ∈ c.erased s l, c.RemovalBreaks s.fs q) ∧
      ∀ w ∈ c.written s l, c.WriteSpares s.fs w.1 w.2)
    ⟨fun ⟨hfresh, hremoval, hwrite⟩ => ⟨hfresh, hremoval, hwrite⟩,
      fun h => ⟨h.fresh, h.removal, h.write⟩⟩

structure Sound (c : CacheSlot) (s : CacheRun) : Prop where
  whole : c.complete s.fs = true → c.Whole s
  staged : c.Staged s

theorem Staged.step (h : c.Staged s) (hok : c.Careful s l) (hstep : c.step s l = some t) :
    c.Staged t := by
  cases l with
  | go =>
    refine h.go (fun tarball hpc => hok.fresh tarball ?_) hstep
    simp [extracting, hpc]
  | removes q => exact h.removes hstep
  | writes content =>
    cases hpc : s.pc with
    | awaiting =>
      simp only [CacheSlot.step, hpc] at hstep
      obtain ⟨q, -, hmap⟩ := Option.bind_eq_some_iff.mp hstep
      obtain ⟨fs, -, rfl⟩ := Option.map_eq_some_iff.mp hmap
      trivial
    | _ => simp [CacheSlot.step, hpc] at hstep
  | ensureModel =>
    simp only [CacheSlot.step] at hstep
    split_ifs at hstep
    · rwa [← Option.some.inj hstep]
    all_goals
      rw [← Option.some.inj hstep]
      trivial
  | downloadWeights | unavailable =>
    simp only [CacheSlot.step] at hstep
    split_ifs at hstep
    rw [← Option.some.inj hstep]
    trivial
  | raises | cancelled =>
    simp only [CacheSlot.step] at hstep
    split at hstep
    all_goals first
      | (rw [← Option.some.inj hstep]; trivial)
      | simp at hstep
  | crash =>
    rw [← Option.some.inj hstep]
    trivial

/-- The rename puts the full extraction in place. -/
theorem Staged.whole_of_swapsIn (h : c.Staged s) (hren : swapsIn s l = true)
    (hstep : c.step s l = some t) : c.Whole t := by
  obtain ⟨tarball, rfl, hpc⟩ : ∃ tarball, l = .go ∧ s.pc = .rename tarball := by
    unfold swapsIn at hren
    split at hren
    · next tarball hpc => exact ⟨tarball, rfl, hpc⟩
    · simp at hren
  rw [Staged, hpc] at h
  simp only [CacheSlot.step, CacheSlot.go, hpc] at hstep
  split_ifs at hstep
  rw [← Option.some.inj hstep]
  exact ⟨tarball, h.1, fun rel => (FileSystem.lookup_renameEntry rel).trans (h.2 rel)⟩

/-- **An incomplete entry** stays so until the rename. -/
theorem Effect.not_complete (h : c.Effect s l t) (hok : c.Careful s l)
    (hren : swapsIn s l = false) (hbefore : c.complete s.fs = false) :
    c.complete t.fs = false := by
  cases h with
  | stays hfs => rwa [hfs]
  | removes q hq herased hfs =>
    rw [hfs, ← Bool.not_eq_true]
    intro hcomplete
    rw [complete, isModelComplete_mono (FileSystem.erase_part hq) hcomplete] at hbefore
    simp at hbefore
  | writes q x hwritten hneutral hput =>
    by_cases hlink : c.Linked s.fs
    · exact (hok.write _ hwritten).2 hbefore hlink _ hput
    · exact not_complete_of_put hput hneutral hlink hbefore
  | renames hren' => simp [hren] at hren'

/-- **A complete entry** that stays complete stays what it was until the rename. -/
theorem Effect.lookup_eq (h : c.Effect s l t) (hok : c.Careful s l) (hren : swapsIn s l = false)
    (hbefore : c.complete s.fs = true) (hcomplete : c.complete t.fs = true) (rel : List String) :
    t.fs.lookup (c.name :: rel) = s.fs.lookup (c.name :: rel) := by
  cases h with
  | stays hfs => rw [hfs]
  | removes q hq herased hfs =>
    rw [hfs] at hcomplete ⊢
    by_cases hnone : s.fs.lookup q = none
    · exact FileSystem.lookup_erase_of_none hq hnone _
    · rw [FileSystem.lookup_erase hq, if_neg]
      rintro ⟨rest, hrest⟩
      have hhead : q.head? = some c.name := by
        have happend : (q ++ rest).head? = q.head? := List.head?_append_of_ne_nil q hq
        rw [← happend, hrest]
        rfl
      rw [hok.removal q herased hbefore hhead hnone] at hcomplete
      simp at hcomplete
  | writes q x hwritten hneutral hput =>
    rw [FileSystem.lookup_of_put hput]
    split_ifs with heq
    · rw [heq]
      exact ((hok.write _ hwritten).1 hbefore (heq ▸ rfl)).symm
    · rfl
  | renames hren' => simp [hren] at hren'

theorem Sound.step (h : c.Sound s) (hok : c.Careful s l) (hstep : c.step s l = some t) :
    c.Sound t := by
  refine ⟨fun hcomplete => ?_, h.staged.step hok hstep⟩
  obtain ⟨hdownloads, heffect⟩ := effect_of_step h.staged hstep
  cases hren : swapsIn s l with
  | true => exact h.staged.whole_of_swapsIn hren hstep
  | false =>
    cases hbefore : c.complete s.fs with
    | true =>
      obtain ⟨tarball, hmem, htree⟩ := h.whole hbefore
      exact ⟨tarball, hdownloads hmem,
        fun rel => (heffect.lookup_eq hok hren hbefore hcomplete rel).trans (htree rel)⟩
    | false =>
      rw [heffect.not_complete hok hren hbefore] at hcomplete
      simp at hcomplete

/-- What is complete exists. -/
theorem pathExists_of_complete (h : c.complete fs = true) : fs.pathExists [] c.dest = true := by
  rw [complete, isModelComplete_eq_true_iff] at h
  have hdir := h.1
  rw [FileSystem.isDir, beq_iff_eq] at hdir
  obtain ⟨d, hd, -⟩ := Option.bind_eq_some_iff.mp hdir
  rw [FileSystem.pathExists, hd]
  rfl

theorem sound_of_reach (h : c.system.Reach (c.Careful · ·) s) : c.Sound s := by
  refine h.invariant (fun s hs => ?_) fun s l t hs hok hstep => hs.step hok hstep
  obtain ⟨habsent, hpc, -⟩ := hs
  refine ⟨fun hcomplete => ?_, ?_⟩
  · rw [pathExists_of_complete hcomplete] at habsent
    simp at habsent
  · rw [Staged, hpc]
    trivial

/-- **Crash safety**: over any calls, crashes and exceptions, an entry that is complete is the full
extraction of one tarball, as long as no step removes a part of a complete entry that leaves it
complete and nothing else is in the staging directory when an extraction begins. -/
theorem whole_of_reach (h : c.system.Reach (c.Careful · ·) s) :
    isModelComplete s.fs [] c.dest = true → c.Whole s :=
  (sound_of_reach h).whole

/-- A tarball with a configuration and two weight files, all empty. -/
def shardedTarball : List UInt8 :=
  [31, 139, 8, 0, 0, 0, 0, 0, 2, 255, 237, 209, 49, 14, 130, 64, 20, 69, 209, 89, 138, 43, 32, 131,
   14, 176, 30, 53, 145, 64, 49, 36, 160, 113, 251, 78, 44, 181, 48, 22, 16, 19, 207, 105, 254, 239,
   94, 113, 207, 83, 190, 12, 125, 53, 46, 83, 14, 107, 137, 69, 155, 210, 243, 22, 175, 247, 253,
   175, 99, 236, 14, 97, 23, 195, 6, 110, 203, 245, 56, 151, 249, 240, 159, 238, 117, 117, 26, 242,
   186, 27, 95, 247, 143, 109, 215, 36, 253, 55, 233, 191, 255, 209, 254, 141, 254, 0, 0, 0, 0, 0, 0,
   0, 0, 240, 201, 3, 236, 160, 236, 85, 0, 40, 0, 0]

def sharded : CacheSlot where
  name := "A--B"
  modelId := "A/B"
  members _ := [(["config.json"], .file []), (["w1.bin"], .file []), (["w2.bin"], .file [])]
  ordinary := by decide

theorem parent_dir_empty : ∀ q ∈ (∅ : Finset (List String)), q.dropLast = [] ∨
    q.dropLast ∈ (∅ : Finset (List String)) ∧ FileNode.dir = .dir := by
  simp

/-- A cache directory with nothing in it. -/
def emptyCache : CacheRun where
  fs := { locations := ∅, node := fun _ => .dir, parent_dir := parent_dir_empty }

theorem init_emptyCache : sharded.system.init emptyCache := by
  refine ⟨?_, rfl, rfl⟩
  decide +kernel

/-- From the bridge's answer to the rename. -/
def install : List CacheLabel := [.go, .go, .go, .go, .go, .go, .go, .go, .go]

/-- A call that dies when it has extracted one file. -/
def diesExtracting : List CacheLabel :=
  [.ensureModel, .go, .go, .writes shardedTarball, .go, .go, .go, .go, .crash]

/-- The next call removes what is there. -/
def recovers : List CacheLabel :=
  [.ensureModel, .go, .go, .go, .removes ["A--B.extracting", "config.json"],
    .removes ["A--B.extracting"]]

theorem whole_recovered : ∃ s, sharded.system.Reach (sharded.Careful · ·) s ∧
    isModelComplete s.fs [] sharded.dest = true ∧ sharded.Whole s := by
  have hfinal : (sharded.system.execGuarded (sharded.Careful · ·) emptyCache
      (diesExtracting ++ recovers ++ install)).any
      (fun s => isModelComplete s.fs [] sharded.dest) = true := by
    decide +kernel
  obtain ⟨s, hrun, hcomplete⟩ := (Option.any_eq_true _ _).mp hfinal
  have hreach : sharded.system.Reach (sharded.Careful · ·) s :=
    (Transition.System.Reach.init init_emptyCache).execGuarded hrun
  exact ⟨s, hreach, hcomplete, whole_of_reach hreach hcomplete⟩

/-- A download up to the bridge's answer. -/
def downloads : List CacheLabel := [.downloadWeights, .go, .writes shardedTarball, .go]

/-- The process dies when one of the two weight files of the old directory is removed. -/
def diesSwapping : List CacheLabel :=
  [.go, .go, .go, .go, .go, .go, .removes ["A--B", "w2.bin"], .crash]

theorem interruptedSwap_not_whole : ¬ ∀ s, sharded.system.Reach Transition.System.anyStep s →
    isModelComplete s.fs [] sharded.dest = true → sharded.Whole s := by
  intro h
  have hfinal : (sharded.system.exec emptyCache
      (downloads ++ install ++ downloads ++ diesSwapping)).any
      (fun s => decide (isModelComplete s.fs [] sharded.dest = true ∧
        s.fs.lookup ["A--B", "w2.bin"] = none)) = true := by
    decide +kernel
  obtain ⟨s, hrun, hs⟩ := (Option.any_eq_true _ _).mp hfinal
  obtain ⟨hcomplete, hgone⟩ := of_decide_eq_true hs
  obtain ⟨tarball, -, htree⟩ := h s (Transition.System.reach_of_exec init_emptyCache hrun) hcomplete
  have hfile := htree ["w2.bin"]
  rw [show sharded.name :: ["w2.bin"] = ["A--B", "w2.bin"] from rfl, hgone] at hfile
  simp [sharded, unpack] at hfile

-- ════════════════════════════════════════════════════════════════════════
-- Runs of `ensure_model` alone
-- ════════════════════════════════════════════════════════════════════════

/-- A step without a direct download, for an entry that has no links and no temporary file. -/
def Managed (c : CacheSlot) (s : CacheRun) (l : CacheLabel) : Prop :=
  l ≠ .downloadWeights ∧ (∀ tarball ∈ extracting s l, c.Fresh s.fs tarball) ∧
    ¬ c.Linked s.fs ∧ ∀ q ∈ c.tmpFile s.fs, q.head? ≠ some c.name

/-- The call that runs, if any, is not going to remove the entry. -/
def spares (s : CacheRun) : Bool :=
  match s.pc with
  | .idle | .unlinkTmp => true
  | _ => false

/-- A call that may remove the entry has found it incomplete. -/
structure Guarded (c : CacheSlot) (s : CacheRun) : Prop where
  sound : c.Sound s
  incomplete : spares s = false → c.complete s.fs = false

/-- With nothing left to remove in the entry, a step removes at most the temporary file. -/
theorem erased_of_spares (hspares : spares s = true) (hstep : c.step s l = some t)
    (herased : q ∈ c.erased s l) : q ∈ c.tmpFile s.fs := by
  cases l with
  | removes r => cases hpc : s.pc <;> simp_all [spares, CacheSlot.step]
  | go => cases hpc : s.pc <;> simp_all [spares, erased]
  | _ => simp [erased] at herased

/-- And writes nothing. -/
theorem written_of_spares (hspares : spares s = true) : c.written s l = none := by
  cases hpc : s.pc with
  | idle | unlinkTmp => cases l <;> simp [written, hpc]
  | _ => simp [spares, hpc] at hspares

/-- A call that goes on to remove the entry was about to, or has just found it incomplete. -/
theorem spares_of_step (hl : l ≠ .downloadWeights) (hstep : c.step s l = some t)
    (hspares : spares t = false) :
    (spares s = false ∧ swapsIn s l = false) ∨ (t.fs = s.fs ∧ c.complete s.fs = false) := by
  cases l with
  | ensureModel =>
    simp only [CacheSlot.step] at hstep
    split_ifs at hstep with hidle hcomplete
    · rw [← Option.some.inj hstep] at hspares
      simp [spares, hidle] at hspares
    all_goals
      rw [← Option.some.inj hstep]
      exact Or.inr ⟨rfl, by simpa using hcomplete⟩
  | downloadWeights => exact absurd rfl hl
  | go =>
    refine Or.inl ?_
    cases hpc : s.pc with
    | idle => simp [CacheSlot.step, CacheSlot.go, hpc] at hstep
    | rename tarball =>
      simp only [CacheSlot.step, CacheSlot.go, hpc] at hstep
      split_ifs at hstep
      rw [← Option.some.inj hstep] at hspares
      simp [spares] at hspares
    | unlinkTmp =>
      simp only [CacheSlot.step, CacheSlot.go, hpc] at hstep
      split at hstep
      · split_ifs at hstep
        rw [← Option.some.inj hstep] at hspares
        simp [spares] at hspares
      · rw [← Option.some.inj hstep] at hspares
        simp [spares] at hspares
    | _ => simp [spares, swapsIn, hpc]
  | crash =>
    rw [← Option.some.inj hstep] at hspares
    simp [spares] at hspares
  | _ =>
    refine Or.inl ⟨?_, rfl⟩
    cases hpc : s.pc with
    | idle => simp [CacheSlot.step, hpc] at hstep
    | unlinkTmp =>
      simp only [CacheSlot.step, hpc] at hstep
      first
        | (rw [← Option.some.inj hstep] at hspares; simp [spares] at hspares)
        | simp at hstep
    | _ => simp [spares, hpc]

theorem Guarded.careful (h : c.Guarded s) (hok : c.Managed s l) (hstep : c.step s l = some t) :
    c.Careful s l := by
  refine ⟨hok.2.1, fun q herased hcomplete hhead _ => ?_, fun w hwritten =>
    ⟨fun hcomplete _ => ?_, fun _ hlinked => absurd hlinked hok.2.2.1⟩⟩
  · cases hspares : spares s with
    | true => exact absurd hhead (hok.2.2.2 q (erased_of_spares hspares hstep herased))
    | false =>
      rw [h.incomplete hspares] at hcomplete
      simp at hcomplete
  · cases hspares : spares s with
    | true => simp [written_of_spares hspares] at hwritten
    | false =>
      rw [h.incomplete hspares] at hcomplete
      simp at hcomplete

theorem Guarded.step (h : c.Guarded s) (hok : c.Managed s l) (hstep : c.step s l = some t) :
    c.Guarded t := by
  have hcareful := h.careful hok hstep
  refine ⟨h.sound.step hcareful hstep, fun hspares => ?_⟩
  obtain ⟨hbefore, hren⟩ | ⟨hfs, hincomplete⟩ := spares_of_step hok.1 hstep hspares
  · exact (effect_of_step h.sound.staged hstep).2.not_complete hcareful hren (h.incomplete hbefore)
  · rwa [hfs]

/-- **The manager alone**: without direct downloads no removal meets a complete entry, and only
what is left in the staging directory has to be ruled out. -/
theorem whole_of_managed (h : c.system.Reach (c.Managed · ·) s) :
    c.complete s.fs = true → c.Whole s := by
  have hguarded : c.Guarded s := by
    refine h.invariant (fun s hs => ?_) fun s l t hs hok hstep => hs.step hok hstep
    refine ⟨sound_of_reach (.init hs), fun hspares => ?_⟩
    simp [spares, hs.2.1] at hspares
  exact hguarded.sound.whole

end CacheSlot

end OpenModel.Model
