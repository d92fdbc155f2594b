import OpenModel.Lib.FileSystem

/-!
# The model cache

`ModelManager.ensure_model` maps a model id from a request to a directory below
`cache_dir`, uses it if it is complete, and otherwise removes what is there and asks
FOC for the weights. The directory name is the id with every `/` replaced, which
`pathlib` then joins to `cache_dir`: an empty name or `.` joins to `cache_dir` itself.

The checks and the removal run without an `await` between them, so they see one file
system.

## Main results

- `ModelManager.cachedPath_parts`: the path that belongs to an id
- `ModelManager.touchesOnlyOwn_iff`: `ensure_model` touches nothing but the model's own
  directory exactly when its name is an ordinary one or nothing is touched
-/

namespace OpenModel.Model

/-- `ModelManifest`, without the fields that no modelled function reads. -/
structure ModelManifest where
  modelId : String
  checksumSha256 : String
  sourceUri : String
  deriving DecidableEq, Repr

/-- What the manager asks of FOC; `none` is an exception. -/
structure FocClient where
  checkAvailability : String → Bool
  resolveModel : String → Option ModelManifest
  downloadWeights : ModelManifest → PurePath → Option PurePath

/-- The file names that count as weights. -/
def weightSuffixes : List String := [".safetensors", ".bin", ".pt", ".gguf", ".index.json"]

/-- `is_model_complete`. -/
def isModelComplete (fs : FileSystem) (cwd : List String) (path : PurePath) : Bool :=
  if !fs.isDir cwd path then false
  else if !fs.pathExists cwd (path.join (PurePath.parse "config.json")) then false
  else weightSuffixes.any fun suffix => fs.anyChild cwd path suffix

/-- `s.replace("/", "--")`. -/
def replaceSlashes (s : String) : String :=
  String.ofList (s.toList.flatMap fun c => if c = '/' then ['-', '-'] else [c])

/-- `ModelManager`, with the process's working directory. -/
structure ModelManager where
  foc : FocClient
  cacheDir : PurePath
  cwd : List String

/-- What one call of `ensure_model` does: the path it removes, the path it hands to
`download_weights`, the file system after the removal step, and its result, `none` if it
raises. -/
structure EnsureModel where
  removed : Option PurePath
  downloadTo : Option PurePath
  fs : FileSystem
  result : Option String

namespace ModelManager

/-- `self._cache_dir / model_id.replace("/", "--")`. -/
def cachedPath (m : ModelManager) (modelId : String) : PurePath :=
  m.cacheDir.join (PurePath.parse (replaceSlashes modelId))

/-- `ensure_model`; `undeletable` says where the removal fails. -/
def ensureModel (m : ModelManager) (fs : FileSystem) (undeletable : List String → Bool)
    (modelId : String) : EnsureModel :=
  let path := m.cachedPath modelId
  if isModelComplete fs m.cwd path then ⟨none, none, fs, some path.toStr⟩
  else
    let removed := if fs.pathExists m.cwd path then some path else none
    let fs' := if fs.pathExists m.cwd path then fs.rmtree undeletable m.cwd path else fs
    if m.foc.checkAvailability modelId then
      match m.foc.resolveModel modelId with
      | none => ⟨removed, none, fs', none⟩
      | some manifest =>
        ⟨removed, some path, fs', (m.foc.downloadWeights manifest path).map PurePath.toStr⟩
    else ⟨removed, none, fs', some modelId⟩

variable {m : ModelManager} {fs : FileSystem} {undeletable : List String → Bool}
  {modelId : String}

theorem slash_not_mem_replaceSlashes (s : String) : '/' ∉ (replaceSlashes s).toList := by
  simp only [replaceSlashes, String.toList_ofList, List.mem_flatMap, not_exists, not_and]
  intro c _ hc
  split at hc
  · simp at hc
  · next hne => exact hne (List.mem_singleton.mp hc).symm

/-- **The path of an id**: `cache_dir` followed by the id's name, which is dropped when
it is empty or `.`. -/
theorem cachedPath_parts (m : ModelManager) (modelId : String) :
    (m.cachedPath modelId).absolute = m.cacheDir.absolute ∧
      (m.cachedPath modelId).parts = m.cacheDir.parts ++
        if replaceSlashes modelId ≠ "" ∧ replaceSlashes modelId ≠ "." then [replaceSlashes modelId]
        else [] :=
  m.cacheDir.join_parse_of_not_mem (slash_not_mem_replaceSlashes modelId)

/-- The names of the service's own subdirectories of `cache_dir`. -/
def Reserved (name : String) : Prop :=
  name = ".openmodel" ∨ name = ".tmp" ∨ ".extracting".toList <:+ name.toList

/-- A direct child of `cache_dir` with the id's name, which is neither `..` nor one of the
service's own. -/
def IsModelDirectory (m : ModelManager) (modelId : String) (p : PurePath) : Prop :=
  p.absolute = m.cacheDir.absolute ∧ p.parts = m.cacheDir.parts ++ [replaceSlashes modelId] ∧
    replaceSlashes modelId ≠ ".." ∧ ¬ Reserved (replaceSlashes modelId)

/-- The location is in the model's own directory. -/
def InModelDirectory (m : ModelManager) (fs : FileSystem) (modelId : String) (q : List String) :
    Prop :=
  ∃ d, fs.resolve m.cwd true m.cacheDir = some d ∧ d ++ [replaceSlashes modelId] <+: q

/-- The call removes and downloads nothing but the model's own directory, and the removal
step leaves the rest of the disk alone. -/
def TouchesOnlyOwn (m : ModelManager) (fs : FileSystem) (undeletable : List String → Bool)
    (modelId : String) : Prop :=
  let call := m.ensureModel fs undeletable modelId
  (∀ p, call.removed = some p ∨ call.downloadTo = some p → m.IsModelDirectory modelId p) ∧
    ∀ q, ¬ m.InModelDirectory fs modelId q → call.fs.lookup q = fs.lookup q

/-- The id's name is that of an ordinary entry of `cache_dir`. -/
def OrdinaryName (modelId : String) : Prop :=
  replaceSlashes modelId ≠ "" ∧ replaceSlashes modelId ≠ "." ∧ replaceSlashes modelId ≠ ".." ∧
    ¬ Reserved (replaceSlashes modelId)

/-- There is nothing to remove and nothing to download: the path is complete, or it does
not exist and FOC cannot resolve the id. -/
def NothingToDo (m : ModelManager) (fs : FileSystem) (modelId : String) : Prop :=
  isModelComplete fs m.cwd (m.cachedPath modelId) = true ∨
    (fs.pathExists m.cwd (m.cachedPath modelId) = false ∧
      (m.foc.checkAvailability modelId = false ∨ m.foc.resolveModel modelId = none))

/-- The call removes the cached path when it exists and is not complete. -/
theorem removed_eq_some_iff {p : PurePath} :
    (m.ensureModel fs undeletable modelId).removed = some p ↔
      isModelComplete fs m.cwd (m.cachedPath modelId) = false ∧
        fs.pathExists m.cwd (m.cachedPath modelId) = true ∧ m.cachedPath modelId = p := by
  simp only [ensureModel]
  by_cases hc : isModelComplete fs m.cwd (m.cachedPath modelId) = true
  · simp [hc]
  · by_cases he : fs.pathExists m.cwd (m.cachedPath modelId) = true <;>
      by_cases ha : m.foc.checkAvailability modelId = true <;>
        cases hr : m.foc.resolveModel modelId <;> simp [hc, he, ha]

/-- The call downloads to the cached path when it is not complete and FOC resolves the
id. -/
theorem downloadTo_eq_some_iff {p : PurePath} :
    (m.ensureModel fs undeletable modelId).downloadTo = some p ↔
      isModelComplete fs m.cwd (m.cachedPath modelId) = false ∧
        m.foc.checkAvailability modelId = true ∧ m.foc.resolveModel modelId ≠ none ∧
          m.cachedPath modelId = p := by
  simp only [ensureModel]
  by_cases hc : isModelComplete fs m.cwd (m.cachedPath modelId) = true
  · simp [hc]
  · by_cases ha : m.foc.checkAvailability modelId = true <;>
      cases hr : m.foc.resolveModel modelId <;> simp [hc, ha]

/-- The removal step changes the disk by removing the cached path, if at all. -/
theorem ensureModel_fs (m : ModelManager) (fs : FileSystem) (undeletable : List String → Bool)
    (modelId : String) :
    (m.ensureModel fs undeletable modelId).fs =
      if (m.ensureModel fs undeletable modelId).removed = none then fs
      else fs.rmtree undeletable m.cwd (m.cachedPath modelId) := by
  simp only [ensureModel]
  by_cases hc : isModelComplete fs m.cwd (m.cachedPath modelId) = true
  · simp [hc]
  · by_cases he : fs.pathExists m.cwd (m.cachedPath modelId) = true <;>
      by_cases ha : m.foc.checkAvailability modelId = true <;>
        cases hr : m.foc.resolveModel modelId <;> simp [hc, he, ha]

theorem touched_eq {p : PurePath}
    (h : (m.ensureModel fs undeletable modelId).removed = some p ∨
      (m.ensureModel fs undeletable modelId).downloadTo = some p) :
    p = m.cachedPath modelId := by
  rcases h with h | h
  · exact (removed_eq_some_iff.mp h).2.2.symm
  · exact (downloadTo_eq_some_iff.mp h).2.2.2.symm

/-- Something is touched unless there is nothing to do. -/
theorem nothingToDo_iff (undeletable : List String → Bool) : m.NothingToDo fs modelId ↔
    (m.ensureModel fs undeletable modelId).removed = none ∧
      (m.ensureModel fs undeletable modelId).downloadTo = none := by
  simp only [NothingToDo, Option.eq_none_iff_forall_ne_some, ne_eq, removed_eq_some_iff,
    downloadTo_eq_some_iff]
  cases isModelComplete fs m.cwd (m.cachedPath modelId) <;>
    cases fs.pathExists m.cwd (m.cachedPath modelId) <;>
      cases m.foc.checkAvailability modelId <;> simp

/-- An ordinary name is looked up in the directory that `cache_dir` resolves to. -/
theorem inModelDirectory_of_resolve (h : OrdinaryName modelId) {d q : List String}
    (hd : fs.resolve m.cwd false (m.cachedPath modelId) = some d) (hq : d <+: q) :
    m.InModelDirectory fs modelId q := by
  obtain ⟨habs, hparts⟩ := m.cachedPath_parts modelId
  rw [if_pos ⟨h.1, h.2.1⟩] at hparts
  rw [FileSystem.resolve, habs, hparts] at hd
  obtain ⟨e, he, rfl⟩ := FileSystem.walk_append_singleton h.2.2.1 hd
  exact ⟨e, he, hq⟩

theorem touchesOnlyOwn_of_ordinaryName (h : OrdinaryName modelId) :
    m.TouchesOnlyOwn fs undeletable modelId := by
  refine ⟨fun p hp => ?_, fun q hq => ?_⟩
  · obtain ⟨habs, hparts⟩ := m.cachedPath_parts modelId
    rw [if_pos ⟨h.1, h.2.1⟩] at hparts
    rw [touched_eq hp]
    exact ⟨habs, hparts, h.2.2⟩
  · rw [ensureModel_fs]
    split
    · rfl
    · apply FileSystem.lookup_rmtree_of_not_prefix
      exact fun d hd hpre => hq (inModelDirectory_of_resolve h hd hpre)

/-- **Exact condition**: `ensure_model` touches only the model's own directory if and
only if the id's name is an ordinary one or there is nothing to do. -/
theorem touchesOnlyOwn_iff (m : ModelManager) (fs : FileSystem)
    (undeletable : List String → Bool) (modelId : String) :
    m.TouchesOnlyOwn fs undeletable modelId ↔ OrdinaryName modelId ∨ m.NothingToDo fs modelId := by
  constructor
  · rintro ⟨hpaths, -⟩
    by_contra hno
    obtain ⟨hname, hdo⟩ := not_or.mp hno
    obtain ⟨p, hp⟩ : ∃ p, (m.ensureModel fs undeletable modelId).removed = some p ∨
        (m.ensureModel fs undeletable modelId).downloadTo = some p := by
      simp only [nothingToDo_iff undeletable, Option.eq_none_iff_forall_ne_some] at hdo
      grind
    obtain ⟨-, hparts, hdots, hres⟩ := hpaths p hp
    rw [touched_eq hp] at hparts
    apply hname
    have hlen := congrArg List.length ((m.cachedPath_parts modelId).2.symm.trans hparts)
    by_cases hne : replaceSlashes modelId ≠ "" ∧ replaceSlashes modelId ≠ "."
    · exact ⟨hne.1, hne.2, hdots, hres⟩
    · simp [hne] at hlen
  · rintro (h | h)
    · exact touchesOnlyOwn_of_ordinaryName h
    · obtain ⟨hrem, hdown⟩ := (nothingToDo_iff undeletable).mp h
      refine ⟨fun p hp => ?_, fun q _ => ?_⟩
      · simp [hrem, hdown] at hp
      · rw [ensureModel_fs, if_pos hrem]

/-- `/models` with one complete model in it. -/
def oneModel : FileSystem where
  locations := {["models"], ["models", "A--B"], ["models", "A--B", "config.json"],
    ["models", "A--B", "w.safetensors"]}
  node q := if q.length ≤ 2 then .dir else .file []
  parent_dir := by decide +kernel

/-- A manager of `/models` whose FOC offers nothing. -/
def offlineManager : ModelManager where
  foc := ⟨fun _ => false, fun _ => none, fun _ _ => none⟩
  cacheDir := PurePath.parse "/models"
  cwd := []

/-- A request for the model `""` removes the whole cache, the other model included. -/
theorem emptyModelId_not_touchesOnlyOwn :
    ¬ offlineManager.TouchesOnlyOwn oneModel (fun _ => false) "" ∧
      isModelComplete oneModel [] (offlineManager.cachedPath "A/B") = true ∧
      (offlineManager.ensureModel oneModel (fun _ => false) "").fs.lookup
        ["models", "A--B", "w.safetensors"] = none := by
  refine ⟨fun h => ?_, by decide +kernel, by decide +kernel⟩
  have hrem : (offlineManager.ensureModel oneModel (fun _ => false) "").removed =
      some (offlineManager.cachedPath "") :=
    removed_eq_some_iff.mpr ⟨by decide +kernel, by decide +kernel, rfl⟩
  obtain ⟨-, hparts, -⟩ := h.1 _ (Or.inl hrem)
  rw [(offlineManager.cachedPath_parts "").2] at hparts
  have := congrArg List.length hparts
  revert this
  decide +kernel

end ModelManager

end OpenModel.Model
