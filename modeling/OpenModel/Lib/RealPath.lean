import Mathlib.Data.Finset.Card
import OpenModel.Lib.FileSteps

/-!
# Real paths

Two more ways to follow a path through a tree. `openAt` is where a file is opened for
writing: the last name may be missing, and a symbolic link is followed there too.
`realpath` is Python's, not strict: a name that does not exist counts as a directory, so
that a `..` behind it goes back, and only a link that leads back to itself has no real path.

The kernel never gets to a place that is not the real path.

## Main results

- `realpath_of_openAt`, `realpath_of_resolve`: a path that the kernel follows ends at its
  real path
- `realpath_of_entryOf`: so does a new entry
-/

namespace FileSystem

/-- Where a file is opened for writing. `jump` goes on behind a symbolic link. -/
def openWith (fs : FileSystem) (jump : List String → List String → Option (List String))
    (cur : List String) : List String → Option (List String)
  | [] => some cur
  | c :: cs =>
    if c = ".." then openWith fs jump cur.dropLast cs
    else
      match fs.lookup (cur ++ [c]) with
      | none => if cs = [] then some (cur ++ [c]) else none
      | some .dir => openWith fs jump (cur ++ [c]) cs
      | some (.file _) => if cs = [] then some (cur ++ [c]) else none
      | some (.symlink target) => jump (if target.absolute then [] else cur) (target.parts ++ cs)

def openWalk (fs : FileSystem) : Nat → List String → List String → Option (List String)
  | 0 => openWith fs fun _ _ => none
  | links + 1 => openWith fs (openWalk fs links)

/-- The location that `open(p, "wb")` writes. -/
def openAt (fs : FileSystem) (cwd : List String) (p : PurePath) : Option (List String) :=
  fs.openWalk 40 (if p.absolute then [] else cwd) p.parts

/-- The directory entry that a path names, be it there or not; `..` names none. -/
def entryOf (fs : FileSystem) (cwd : List String) (p : PurePath) : Option (List String) :=
  (p.parts.getLast?.filter (· ≠ "..")).bind fun n =>
    (fs.walk true 40 (if p.absolute then [] else cwd) p.parts.dropLast).map (· ++ [n])

/-- The real path of some components from `cur`. `follow` resolves a symbolic link. -/
def realWith (fs : FileSystem) (follow : List String → List String → Option (List String))
    (cur : List String) : List String → Option (List String)
  | [] => some cur
  | c :: cs =>
    if c = ".." then realWith fs follow cur.dropLast cs
    else
      match fs.lookup (cur ++ [c]) with
      | some (.symlink target) =>
        (follow (if target.absolute then [] else cur) target.parts).bind
          fun cur => realWith fs follow cur cs
      | _ => realWith fs follow (cur ++ [c]) cs

/-- Real paths through links that are nested so deep. -/
def real (fs : FileSystem) : Nat → List String → List String → Option (List String)
  | 0 => realWith fs fun _ _ => none
  | depth + 1 => realWith fs (real fs depth)

/-- More than there are links, which only a loop has. -/
def maxDepth (fs : FileSystem) : Nat := fs.locations.card + 40

/-- `os.path.realpath(p)`, without a value for a loop of links. -/
def realpath (fs : FileSystem) (cwd : List String) (p : PurePath) : Option (List String) :=
  fs.real fs.maxDepth (if p.absolute then [] else cwd) p.parts

variable {fs : FileSystem} {cwd cur cs d : List String} {p : PurePath} {n : String}

-- ════════════════════════════════════════════════════════════════════════
-- Steps of a real path
-- ════════════════════════════════════════════════════════════════════════

section Real

variable {follow follow' : List String → List String → Option (List String)}

theorem realWith_append {xs ys : List String} :
    fs.realWith follow cur (xs ++ ys) =
      (fs.realWith follow cur xs).bind fun cur => fs.realWith follow cur ys := by
  induction xs generalizing cur with
  | nil => rfl
  | cons x xs ih =>
    simp only [List.cons_append, realWith]
    split_ifs
    · exact ih
    · split
      · rw [Option.bind_assoc]
        exact congrArg _ (funext fun cur => ih)
      · exact ih

theorem realWith_mono (hfollow : ∀ cur cs d, follow cur cs = some d → follow' cur cs = some d)
    (h : fs.realWith follow cur cs = some d) : fs.realWith follow' cur cs = some d := by
  induction cs generalizing cur with
  | nil => exact h
  | cons c cs ih =>
    simp only [realWith] at h ⊢
    split_ifs at h ⊢
    · exact ih h
    · split at h
      · obtain ⟨e, he, h⟩ := Option.bind_eq_some_iff.mp h
        rw [hfollow _ _ _ he]
        exact ih h
      · exact ih h

end Real

theorem real_append {depth : Nat} {xs ys : List String} :
    fs.real depth cur (xs ++ ys) = (fs.real depth cur xs).bind fun cur => fs.real depth cur ys := by
  cases depth <;> exact realWith_append

theorem real_succ {depth : Nat} (h : fs.real depth cur cs = some d) :
    fs.real (depth + 1) cur cs = some d := by
  induction depth generalizing cur cs d with
  | zero => exact realWith_mono (fun _ _ _ hnone => by cases hnone) h
  | succ depth ih => exact realWith_mono (fun _ _ _ h => ih h) h

theorem real_mono {depth depth' : Nat} (hle : depth ≤ depth') (h : fs.real depth cur cs = some d) :
    fs.real depth' cur cs = some d := by
  induction hle with
  | refl => exact h
  | step _ ih => exact real_succ ih

/-- A name that is no link is where it stands. -/
theorem real_singleton {depth : Nat} (hn : n ≠ "..")
    (hlink : ∀ target, fs.lookup (cur ++ [n]) ≠ some (.symlink target)) :
    fs.real depth cur [n] = some (cur ++ [n]) := by
  have hstep (follow : List String → List String → Option (List String)) :
      fs.realWith follow cur [n] = some (cur ++ [n]) := by
    rw [realWith, if_neg hn]
    split
    · next target htarget => exact absurd htarget (hlink target)
    · rfl
  cases depth <;> exact hstep _

-- ════════════════════════════════════════════════════════════════════════
-- The kernel ends at the real path
-- ════════════════════════════════════════════════════════════════════════

/-- One level of links: `jump` goes on where the link's real path is. -/
theorem realWith_of_openWith {jump follow : List String → List String → Option (List String)}
    (hjump : ∀ cur xs ys d, jump cur (xs ++ ys) = some d →
      ∃ e, follow cur xs = some e ∧ fs.realWith follow e ys = some d)
    (h : fs.openWith jump cur cs = some d) : fs.realWith follow cur cs = some d := by
  induction cs generalizing cur with
  | nil => exact h
  | cons c cs ih =>
    simp only [openWith] at h
    simp only [realWith]
    by_cases hdots : c = ".."
    · rw [if_pos hdots] at h ⊢
      exact ih h
    · rw [if_neg hdots] at h ⊢
      cases hlook : fs.lookup (cur ++ [c]) with
      | none =>
        rw [hlook] at h
        obtain ⟨rfl, h⟩ := Option.ite_none_right_eq_some.mp h
        exact h
      | some x =>
        rw [hlook] at h
        cases x with
        | dir => exact ih h
        | file content =>
          obtain ⟨rfl, h⟩ := Option.ite_none_right_eq_some.mp h
          exact h
        | symlink target =>
          obtain ⟨e, he, hrest⟩ := hjump _ _ _ _ h
          exact Option.bind_eq_some_iff.mpr ⟨e, he, hrest⟩

theorem real_of_openWalk {links : Nat} (h : fs.openWalk links cur cs = some d) :
    fs.real links cur cs = some d := by
  induction links generalizing cur cs d with
  | zero => exact realWith_of_openWith (fun _ _ _ _ hnone => by cases hnone) h
  | succ links ih =>
    refine realWith_of_openWith (fun cur xs ys d hjump => ?_) h
    have hall := ih hjump
    rw [real_append] at hall
    obtain ⟨e, he, hrest⟩ := Option.bind_eq_some_iff.mp hall
    exact ⟨e, he, real_succ hrest⟩

/-- What resolves is opened where it is. -/
theorem openWith_of_walkWith {jump jump' : List String → List String → Option (List String)}
    (hjump : ∀ cur cs d, jump cur cs = some d → jump' cur cs = some d)
    (h : fs.walkWith true jump cur cs = some d) : fs.openWith jump' cur cs = some d := by
  induction cs generalizing cur with
  | nil => exact h
  | cons c cs ih =>
    simp only [walkWith] at h
    simp only [openWith]
    by_cases hdots : c = ".."
    · rw [if_pos hdots] at h ⊢
      exact ih h
    · rw [if_neg hdots] at h ⊢
      cases hlook : fs.lookup (cur ++ [c]) with
      | none => simp [hlook] at h
      | some x =>
        rw [hlook] at h
        cases x with
        | dir => exact ih h
        | file content => exact h
        | symlink target =>
          have hfollow : ¬ (cs = [] ∧ true = false) := by simp
          simp only [if_neg hfollow] at h
          exact hjump _ _ _ h

theorem openWalk_of_walk {links : Nat} (h : fs.walk true links cur cs = some d) :
    fs.openWalk links cur cs = some d := by
  induction links generalizing cur cs d with
  | zero => exact openWith_of_walkWith (fun _ _ _ hnone => by cases hnone) h
  | succ links ih => exact openWith_of_walkWith (fun _ _ _ h => ih h) h

theorem realpath_of_openAt (h : fs.openAt cwd p = some d) : fs.realpath cwd p = some d :=
  real_mono (by simp [maxDepth]) (real_of_openWalk h)

theorem realpath_of_resolve (h : fs.resolve cwd true p = some d) : fs.realpath cwd p = some d :=
  realpath_of_openAt (openWalk_of_walk h)

theorem exists_of_entryOf (h : fs.entryOf cwd p = some d) :
    ∃ e n, n ≠ ".." ∧ p.parts = p.parts.dropLast ++ [n] ∧ d = e ++ [n] ∧
      fs.walk true 40 (if p.absolute then [] else cwd) p.parts.dropLast = some e := by
  obtain ⟨n, hn, hentry⟩ := Option.bind_eq_some_iff.mp h
  obtain ⟨hlast, hdots⟩ := Option.filter_eq_some_iff.mp hn
  obtain ⟨e, he, rfl⟩ := Option.map_eq_some_iff.mp hentry
  refine ⟨e, n, of_decide_eq_true hdots, ?_, rfl, he⟩
  obtain ⟨front, hfront⟩ := List.getLast?_eq_some_iff.mp hlast
  rw [hfront, List.dropLast_concat]

/-- The entry stands in the directory that its path without the last name leads to. -/
theorem realpath_dir_of_entryOf {q : PurePath} (habs : q.absolute = p.absolute)
    (hparts : q.parts = p.parts.dropLast) (h : fs.entryOf cwd p = some d) :
    ∃ e, fs.realpath cwd q = some e ∧ e <+: d := by
  obtain ⟨e, n, -, -, rfl, hdir⟩ := exists_of_entryOf h
  refine ⟨e, realpath_of_resolve ?_, List.prefix_append e [n]⟩
  rwa [resolve, habs, hparts]

/-- An entry that is no link is at the real path of its own path. -/
theorem realpath_of_entryOf (h : fs.entryOf cwd p = some d)
    (hlink : ∀ target, fs.lookup d ≠ some (.symlink target)) : fs.realpath cwd p = some d := by
  obtain ⟨e, n, hn, hparts, rfl, hdir⟩ := exists_of_entryOf h
  have hreal := real_mono (show 40 ≤ fs.maxDepth by simp [maxDepth])
    (real_of_openWalk (openWalk_of_walk hdir))
  rw [realpath, hparts, real_append, hreal]
  exact real_singleton hn hlink

end FileSystem
