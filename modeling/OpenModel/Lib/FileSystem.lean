import Mathlib.Data.Finset.Image
import Mathlib.Data.List.Infix

/-!
# POSIX paths and directory trees

Pure paths as Python's `pathlib` builds them, a directory tree with symbolic links,
the kernel's path resolution, and recursive removal.

A location is the list of names from the root down to a node; resolution turns a path
into a location. The tree carries its own well-formedness: every node's parent is a
directory.

## Main results

- `walk_append_singleton`: the last component of a path is looked up in the directory
  that the rest resolves to
- `lookup_rmtree_of_not_prefix`: a recursive removal changes nothing outside the
  subtree of its argument
-/

-- ════════════════════════════════════════════════════════════════════════
-- Pure paths
-- ════════════════════════════════════════════════════════════════════════

/-- A path without empty and `.` components; `..` is kept. -/
structure PurePath where
  absolute : Bool
  parts : List String
  parts_ne : ∀ p ∈ parts, p ≠ "" ∧ p ≠ "."
  deriving DecidableEq

namespace PurePath

/-- The components that remain of a path string. -/
def components (s : String) : List String :=
  ((s.toList.splitOn '/').map String.ofList).filter fun p => p ≠ "" ∧ p ≠ "."

def parse (s : String) : PurePath where
  absolute := s.toList.head? == some '/'
  parts := components s
  parts_ne p hp := by
    simpa [components] using (List.mem_filter.mp hp).2

/-- `p / q`: an absolute `q` replaces `p`. -/
def join (p q : PurePath) : PurePath :=
  if q.absolute then q
  else
    { absolute := p.absolute
      parts := p.parts ++ q.parts
      parts_ne := fun r hr => (List.mem_append.mp hr).elim (p.parts_ne r) (q.parts_ne r) }

/-- `str(p)`. -/
def toStr (p : PurePath) : String :=
  if p.parts = [] then (if p.absolute then "/" else ".")
  else (if p.absolute then "/" else "") ++ "/".intercalate p.parts

theorem components_of_not_mem {s : String} (h : '/' ∉ s.toList) :
    components s = if s ≠ "" ∧ s ≠ "." then [s] else [] := by
  simp only [components, List.splitOn_eq_singleton h, List.map_cons, List.map_nil,
    String.ofList_toList, List.filter_cons, List.filter_nil]
  split <;> simp_all

theorem parse_absolute_of_not_mem {s : String} (h : '/' ∉ s.toList) :
    (parse s).absolute = false := by
  cases hs : s.toList with
  | nil => simp [parse, hs]
  | cons c cs =>
    have hc : c ≠ '/' := fun hc => h (by simp [hs, hc])
    simp [parse, hs, hc]

/-- Joining a string without a separator appends at most one component. -/
theorem join_parse_of_not_mem (p : PurePath) {s : String} (h : '/' ∉ s.toList) :
    (p.join (parse s)).absolute = p.absolute ∧
      (p.join (parse s)).parts = p.parts ++ if s ≠ "" ∧ s ≠ "." then [s] else [] := by
  simp only [join, parse_absolute_of_not_mem h, Bool.false_eq_true, if_false, true_and]
  rw [← components_of_not_mem h]
  rfl

end PurePath

-- ════════════════════════════════════════════════════════════════════════
-- Directory trees
-- ════════════════════════════════════════════════════════════════════════

/-- What a location holds. -/
inductive FileNode
  | dir
  | file (content : List UInt8)
  | symlink (target : PurePath)
  deriving DecidableEq

/-- A finite tree of nodes below the root, which is a directory. -/
structure FileSystem where
  locations : Finset (List String)
  node : List String → FileNode
  parent_dir : ∀ q ∈ locations, q.dropLast = [] ∨
    (q.dropLast ∈ locations ∧ node q.dropLast = .dir)

namespace FileSystem

/-- The node at a location. -/
def lookup (fs : FileSystem) (q : List String) : Option FileNode :=
  if q = [] then some .dir else if q ∈ fs.locations then some (fs.node q) else none

/-- The names in a directory. -/
def children (fs : FileSystem) (d : List String) : Finset String :=
  (fs.locations.filter fun q => q ≠ [] ∧ q.dropLast = d).image fun q => q.getLastD ""

/-- Resolution of the components of a path from the directory `cur`. `jump` goes on
behind a symbolic link; a link in the last place is followed if `follow` says so. -/
def walkWith (fs : FileSystem) (follow : Bool)
    (jump : List String → List String → Option (List String)) (cur : List String) :
    List String → Option (List String)
  | [] => some cur
  | c :: cs =>
    if c = ".." then walkWith fs follow jump cur.dropLast cs
    else
      match fs.lookup (cur ++ [c]) with
      | none => none
      | some .dir => walkWith fs follow jump (cur ++ [c]) cs
      | some (.file _) => if cs = [] then some (cur ++ [c]) else none
      | some (.symlink target) =>
        if cs = [] ∧ follow = false then some (cur ++ [c])
        else jump (if target.absolute then [] else cur) (target.parts ++ cs)

/-- Resolution with at most `links` symbolic links. -/
def walk (fs : FileSystem) (follow : Bool) : Nat → List String → List String → Option (List String)
  | 0 => walkWith fs follow fun _ _ => none
  | links + 1 => walkWith fs follow (walk fs follow links)

/-- The location of a path seen from the working directory `cwd`; the kernel gives up
after 40 symbolic links. -/
def resolve (fs : FileSystem) (cwd : List String) (follow : Bool) (p : PurePath) :
    Option (List String) :=
  fs.walk follow 40 (if p.absolute then [] else cwd) p.parts

/-- `p.exists()`. -/
def pathExists (fs : FileSystem) (cwd : List String) (p : PurePath) : Bool :=
  (fs.resolve cwd true p).isSome

/-- `p.is_dir()`. -/
def isDir (fs : FileSystem) (cwd : List String) (p : PurePath) : Bool :=
  (fs.resolve cwd true p).bind fs.lookup == some .dir

/-- `any(p.glob("*" + suffix))`. -/
def anyChild (fs : FileSystem) (cwd : List String) (p : PurePath) (suffix : String) : Bool :=
  match fs.resolve cwd true p with
  | none => false
  | some d => decide (∃ n ∈ fs.children d, suffix.toList <:+ n.toList)

/-- The removal of `d` cannot delete `q`, for the system refuses to delete something at
or below it. -/
def Stays (fs : FileSystem) (undeletable : List String → Bool) (q : List String) : Prop :=
  ∃ r ∈ fs.locations, q <+: r ∧ undeletable r = true

instance (fs : FileSystem) (undeletable : List String → Bool) (q : List String) :
    Decidable (fs.Stays undeletable q) :=
  inferInstanceAs (Decidable (∃ r ∈ fs.locations, q <+: r ∧ undeletable r = true))

/-- Remove what can be removed of the subtree of `d`, `d` itself only if `itself`. -/
def removeTree (fs : FileSystem) (undeletable : List String → Bool) (d : List String)
    (itself : Bool) : FileSystem where
  locations := fs.locations.filter fun q =>
    ¬ (d <+: q ∧ (itself = true ∨ q ≠ d) ∧ ¬ fs.Stays undeletable q)
  node := fs.node
  parent_dir q hq := by
    obtain ⟨hmem, hkept⟩ := Finset.mem_filter.mp hq
    obtain hroot | ⟨hpar, hdir⟩ := fs.parent_dir q hmem
    · exact Or.inl hroot
    · refine Or.inr ⟨Finset.mem_filter.mpr ⟨hpar, fun ⟨hpre, hself, hgone⟩ => hkept ?_⟩, hdir⟩
      have hup := List.dropLast_prefix q
      refine ⟨hpre.trans hup, ?_, fun ⟨r, hr, hqr, hu⟩ => hgone ⟨r, hr, hup.trans hqr, hu⟩⟩
      obtain hself | hself := hself
      · exact Or.inl hself
      · -- `d` lies strictly above `q`
        refine Or.inr ?_
        rintro rfl
        exact hself (hup.eq_of_length (le_antisymm hup.length_le hpre.length_le))

/-- `shutil.rmtree(p, ignore_errors=True)`: a symbolic link or a file in the last place
is left alone, and so is a directory whose path ends in `..` or has no component. -/
def rmtree (fs : FileSystem) (undeletable : List String → Bool) (cwd : List String)
    (p : PurePath) : FileSystem :=
  match fs.resolve cwd false p with
  | none => fs
  | some d =>
    if fs.lookup d = some .dir then
      fs.removeTree undeletable d (p.parts.getLast?.any (· ≠ ".."))
    else fs

variable {fs : FileSystem} {cwd d q : List String} {p : PurePath} {n : String}
  {undeletable : List String → Bool}

-- ════════════════════════════════════════════════════════════════════════
-- Resolution of the last component
-- ════════════════════════════════════════════════════════════════════════

/-- Without following it, the last name is looked up where the others lead. -/
theorem walkWith_append_singleton {jump jump' : List String → List String → Option (List String)}
    (hn : n ≠ "..")
    (hjump : ∀ cur cs d, jump cur (cs ++ [n]) = some d →
      ∃ e, jump' cur cs = some e ∧ d = e ++ [n])
    {cur cs : List String} (h : fs.walkWith false jump cur (cs ++ [n]) = some d) :
    ∃ e, fs.walkWith true jump' cur cs = some e ∧ d = e ++ [n] := by
  induction cs generalizing cur with
  | nil =>
    refine ⟨cur, rfl, ?_⟩
    simp only [List.nil_append, walkWith, if_neg hn] at h
    split at h
    · cases h
    · exact (Option.some.inj h).symm
    · exact (Option.some.inj h).symm
    · exact (Option.some.inj h).symm
  | cons c cs ih =>
    have hne : cs ++ [n] ≠ [] := by simp
    simp only [List.cons_append, walkWith, hne, false_and, if_false] at h
    simp only [walkWith]
    by_cases hc : c = ".."
    · rw [if_pos hc] at h ⊢
      exact ih h
    · rw [if_neg hc] at h ⊢
      cases hl : fs.lookup (cur ++ [c]) with
      | none => simp [hl] at h
      | some x =>
        cases x with
        | dir =>
          simp only [hl] at h ⊢
          exact ih h
        | file content => simp [hl] at h
        | symlink target =>
          simp only [hl, ← List.append_assoc] at h
          simpa using hjump _ _ _ h

theorem walk_append_singleton (hn : n ≠ "..") {links : Nat} {cur cs : List String}
    (h : fs.walk false links cur (cs ++ [n]) = some d) :
    ∃ e, fs.walk true links cur cs = some e ∧ d = e ++ [n] := by
  induction links generalizing cur cs d with
  | zero => exact walkWith_append_singleton hn (fun _ _ _ hj => by simp at hj) h
  | succ links ih =>
    have hjump : ∀ cur cs d, fs.walk false links cur (cs ++ [n]) = some d →
        ∃ e, fs.walk true links cur cs = some e ∧ d = e ++ [n] := fun _ _ _ hj => ih hj
    exact walkWith_append_singleton hn hjump h

-- ════════════════════════════════════════════════════════════════════════
-- Recursive removal
-- ════════════════════════════════════════════════════════════════════════

theorem lookup_removeTree_of_not_prefix {itself : Bool} (h : ¬ d <+: q) :
    (fs.removeTree undeletable d itself).lookup q = fs.lookup q := by
  simp [lookup, removeTree, h]

/-- **Frame**: a recursive removal leaves everything outside its subtree alone. -/
theorem lookup_rmtree_of_not_prefix
    (h : ∀ d, fs.resolve cwd false p = some d → ¬ d <+: q) :
    (fs.rmtree undeletable cwd p).lookup q = fs.lookup q := by
  simp only [rmtree]
  split
  · rfl
  · next d hd =>
    split
    · exact lookup_removeTree_of_not_prefix (h d hd)
    · rfl

end FileSystem
