import OpenModel.Inference.Pool
import Mathlib.Data.List.DropRight

/-!
# Model names

The engine remembers the path it was started with: the directory of the model in the
cache, or the id itself where FOC does not know the model. `_model_matches` recognizes
both by their last component, after its own replacements in the requested id.

The two replacements are not injective. `org/b` and `b` end in the same component, so an
engine that runs `org/b` from its id answers requests for `b`; `a/b` and `a--b` have one
directory.

## Main results

- `lastRun_append_cons`: the last component of a path is that of its last name
- `ModelManager.ensuredPath_iff`: what `ensure_model` returns
- `ModelManager.finalName_cachedPath`: the component the directory of an id is known by
- `ModelManager.identifies_iff`: exactly the ids that are told apart
-/

-- ════════════════════════════════════════════════════════════════════════
-- Lists cut by separators
-- ════════════════════════════════════════════════════════════════════════

section Separators

variable {α : Type*} {sep : α → Bool} {l xs ys : List α} {s : α}

/-- The last of the runs that the separators cut a list into. -/
def lastRun (sep : α → Bool) (l : List α) : List α :=
  (l.rdropWhile sep).rtakeWhile fun c => !sep c

theorem lastRun_of_forall_not (h : ∀ c ∈ l, sep c = false) : lastRun sep l = l := by
  have hdrop : l.rdropWhile sep = l := by
    rw [List.rdropWhile_eq_self_iff]
    intro hl
    simp [h _ (l.getLast_mem hl)]
  rw [lastRun, hdrop, List.rtakeWhile_eq_self_iff]
  intro c hc
  simp [h c hc]

theorem lastRun_append_of_forall (h : ∀ c ∈ ys, sep c = true) :
    lastRun sep (xs ++ ys) = lastRun sep xs := by
  have hall : ∀ c ∈ ys.reverse, sep c = true := fun c hc => h c (List.mem_reverse.mp hc)
  simp only [lastRun, List.rdropWhile, List.reverse_append, List.dropWhile_append_of_pos hall]

theorem lastRun_eq_nil_iff : lastRun sep l = [] ↔ ∀ c ∈ l, sep c = true := by
  constructor
  · intro h
    rw [lastRun, List.rtakeWhile_eq_nil_iff] at h
    have hnil : l.rdropWhile sep = [] := by
      by_contra hne
      have hlast := h hne
      rw [Bool.not_eq_true, Bool.not_eq_false'] at hlast
      exact absurd hlast (List.rdropWhile_last_not sep l hne)
    exact List.rdropWhile_eq_nil_iff.mp hnil
  · intro h
    have hnil : lastRun sep ([] ++ l) = lastRun sep [] := lastRun_append_of_forall h
    simpa [lastRun] using hnil

/-- **Composition**: the last run is behind a separator unless only separators are. -/
theorem lastRun_append_cons (hs : sep s = true) (hys : ∃ c ∈ ys, sep c = false) :
    lastRun sep (xs ++ s :: ys) = lastRun sep ys := by
  have hne : (ys.reverse.dropWhile sep).isEmpty = false := by
    rw [List.isEmpty_eq_false_iff, ne_eq, List.dropWhile_eq_nil_iff]
    obtain ⟨c, hc, hsep⟩ := hys
    intro hall
    simpa [hsep] using hall c (List.mem_reverse.mpr hc)
  have hrev : (xs ++ s :: ys).reverse = ys.reverse ++ s :: xs.reverse := by simp
  have hdrop : (ys.reverse ++ s :: xs.reverse).dropWhile sep =
      ys.reverse.dropWhile sep ++ s :: xs.reverse := by
    simp [List.dropWhile_append, hne]
  have htake : ∀ zs : List α, (zs ++ s :: xs.reverse).takeWhile (fun c => !sep c) =
      zs.takeWhile fun c => !sep c := by
    intro zs
    rw [List.takeWhile_append]
    split
    · next hlen =>
      rw [List.takeWhile_cons, hs, (List.takeWhile_prefix _).eq_of_length hlen]
      simp
    · rfl
  simp only [lastRun, List.rdropWhile, List.rtakeWhile, List.reverse_reverse, hrev, hdrop, htake]

theorem mem_intercalate_iff {c : α} (hc : c ≠ s) {ls : List (List α)} :
    c ∈ [s].intercalate ls ↔ ∃ l ∈ ls, c ∈ l := by
  induction ls with
  | nil => simp
  | cons l ls ih =>
    cases ls with
    | nil => simp
    | cons l' ls => simp [List.intercalate_cons_cons, hc, ih]

end Separators

namespace PurePath

theorem toStr_of_parts_nil {p : PurePath} (h : p.parts = []) :
    p.toStr = if p.absolute then "/" else "." := by
  simp [toStr, h]

theorem toList_toStr {p : PurePath} (h : p.parts ≠ []) :
    p.toStr.toList = (if p.absolute then ['/'] else []) ++
      ['/'].intercalate (p.parts.map String.toList) := by
  rw [toStr, if_neg h, String.toList_append, String.toList_intercalate]
  split <;> rfl

theorem toStr_ne_empty (p : PurePath) : p.toStr ≠ "" := by
  by_cases h : p.parts = []
  · rw [toStr_of_parts_nil h]
    split <;> decide
  · intro hempty
    have hlist := toList_toStr h
    rw [hempty] at hlist
    obtain ⟨x, xs, hparts⟩ := List.exists_cons_of_ne_nil h
    have hx : x ≠ "" := (p.parts_ne x (by simp [hparts])).1
    have hnil := (List.append_eq_nil_iff.mp hlist.symm).2
    rw [hparts] at hnil
    cases xs <;> simp_all [List.intercalate]

theorem ext_iff_parts {p q : PurePath} (h : p.absolute = q.absolute) :
    p = q ↔ p.parts = q.parts := by
  cases p
  cases q
  simp_all

/-- The string of a path with a last name: what comes before is empty or ends in `/`. -/
theorem exists_toList_toStr {p : PurePath} {ps : List String} {n : String}
    (h : p.parts = ps ++ [n]) :
    p.toStr.toList = n.toList ∨ ∃ dir, p.toStr.toList = dir ++ '/' :: n.toList := by
  have hne : p.parts ≠ [] := by simp [h]
  rw [toStr, if_neg hne, h]
  cases ps using List.reverseRecOn with
  | nil =>
    by_cases ha : p.absolute = true
    · exact Or.inr ⟨[], by simp [ha]⟩
    · exact Or.inl (by simp [ha])
  | append_singleton ps q =>
    refine Or.inr ⟨((if p.absolute then "/" else "") ++ "/".intercalate (ps ++ [q])).toList, ?_⟩
    rw [String.intercalate_append_of_ne_nil (by simp) (by simp)]
    simp

/-- The characters of a path are those of its names, and slashes. -/
theorem mem_toStr_iff {p : PurePath} (h : p.parts ≠ []) {c : Char} (hc : c ≠ '/') :
    c ∈ p.toStr.toList ↔ ∃ n ∈ p.parts, c ∈ n.toList := by
  have hroot : c ∉ (if p.absolute then ['/'] else []) := by
    split <;> simp [hc]
  rw [toList_toStr h, List.mem_append, or_iff_right hroot, mem_intercalate_iff hc]
  simp

end PurePath

-- ════════════════════════════════════════════════════════════════════════
-- Final names
-- ════════════════════════════════════════════════════════════════════════

namespace OpenModel.Inference

open Model (replaceSlashes)

def isSeparator (c : Char) : Bool := c = '/' || c = Char.ofNat 92

/-- The last component of a string at slashes and backslashes. -/
def finalName (s : String) : List Char := lastRun isSeparator s.toList

/-- `_model_matches` compares final names. -/
theorem lastComponent_eq_finalName (s : String) : lastComponent s = finalName s := by
  have hsep : ((fun c => decide (c = '/')) ∘ fun c => if c = Char.ofNat 92 then '/' else c) =
      isSeparator := by
    funext c
    by_cases hc : c = Char.ofNat 92 <;> simp [isSeparator, hc]
  have hnot : ((fun c => decide (c ≠ '/')) ∘ fun c => if c = Char.ofNat 92 then '/' else c) =
      fun c => !isSeparator c := by
    funext c
    by_cases hc : c = Char.ofNat 92 <;> simp [isSeparator, hc]
  have hself : ∀ l : List Char, (∀ c ∈ l, isSeparator c = false) →
      l.map (fun c => if c = Char.ofNat 92 then '/' else c) = l := by
    intro l hl
    refine List.map_congr_left (g := id) (fun c hc => ?_) |>.trans (List.map_id l)
    have := hl c hc
    simp_all [isSeparator]
  simp only [lastComponent, finalName, lastRun, List.rdropWhile, List.rtakeWhile,
    List.reverse_reverse, ← List.map_reverse, List.dropWhile_map, List.takeWhile_map, hsep, hnot]
  rw [hself]
  intro c hc
  simpa using List.mem_takeWhile_imp (List.mem_reverse.mp hc)

theorem modelMatches_eq_true_iff {current requested : String} :
    modelMatches current requested = true ↔ current ≠ "" ∧
      (current = requested ∨ finalName current = finalName (replaceSlashes requested)) := by
  simp only [modelMatches, lastComponent_eq_finalName]
  by_cases hempty : current = ""
  · simp [hempty]
  · by_cases hself : current = requested <;> simp [hempty, hself]

theorem modelMatches_eq_false_iff {current requested : String} (h : current ≠ "") :
    modelMatches current requested = false ↔
      current ≠ requested ∧ finalName current ≠ finalName (replaceSlashes requested) := by
  rw [← Bool.not_eq_true, modelMatches_eq_true_iff]
  simp [h]

end OpenModel.Inference

-- ════════════════════════════════════════════════════════════════════════
-- What `ensure_model` returns
-- ════════════════════════════════════════════════════════════════════════

namespace OpenModel.Model.ModelManager

open Inference

/-- `p` is what `ensure_model(id)` returns from some disk, for some FOC whose
`download_weights` returns the directory it was given. -/
def EnsuredPath (m : ModelManager) (id p : String) : Prop :=
  ∃ (foc : FocClient) (fs : FileSystem) (undeletable : List String → Bool),
    (∀ manifest path q, foc.downloadWeights manifest path = some q → q = path) ∧
      (ModelManager.ensureModel { m with foc := foc } fs undeletable id).result = some p

/-- A disk with nothing on it. -/
def emptyDisk : FileSystem where
  locations := ∅
  node _ := .dir
  parent_dir := by simp

theorem walkWith_emptyDisk {follow : Bool} {jump : List String → List String → Option (List String)}
    {n : String} (hn : n ≠ "..") (cur cs : List String) :
    emptyDisk.walkWith follow jump cur (cs ++ [n]) = none := by
  induction cs generalizing cur with
  | nil => simp [FileSystem.walkWith, FileSystem.lookup, emptyDisk, hn]
  | cons c cs ih =>
    by_cases hc : c = ".."
    · simp only [List.cons_append, FileSystem.walkWith, if_pos hc, ih]
    · simp [FileSystem.walkWith, FileSystem.lookup, emptyDisk, hc]

/-- Nothing is complete on an empty disk. -/
theorem not_isModelComplete_emptyDisk (cwd : List String) (p : PurePath) :
    isModelComplete emptyDisk cwd p = false := by
  have hparts : (p.join (PurePath.parse "config.json")).parts = p.parts ++ ["config.json"] :=
    (p.join_parse_of_not_mem (by decide)).2
  have hnone : emptyDisk.pathExists cwd (p.join (PurePath.parse "config.json")) = false := by
    rw [FileSystem.pathExists, FileSystem.resolve, hparts]
    exact congrArg Option.isSome (walkWith_emptyDisk (by decide) _ _)
  simp [isModelComplete, hnone]

/-- **The two forms**: the directory of the id, or the id itself. -/
theorem ensuredPath_iff {m : ModelManager} {id p : String} :
    m.EnsuredPath id p ↔ p = (m.cachedPath id).toStr ∨ p = id := by
  constructor
  · rintro ⟨foc, fs, undeletable, hfoc, hres⟩
    simp only [ensureModel] at hres
    split at hres
    · exact Or.inl (Option.some.inj hres).symm
    · split at hres
      · split at hres
        · simp at hres
        · obtain ⟨q, hq, rfl⟩ := Option.map_eq_some_iff.mp hres
          exact Or.inl (by rw [hfoc _ _ q hq]; rfl)
      · exact Or.inr (Option.some.inj hres).symm
  · rintro (rfl | rfl)
    · refine ⟨⟨fun _ => true, fun _ => some ⟨id, "", ""⟩, fun _ path => some path⟩, emptyDisk,
        fun _ => false, by simp, ?_⟩
      simp only [ensureModel, not_isModelComplete_emptyDisk]
      rfl
    · refine ⟨⟨fun _ => false, fun _ => none, fun _ _ => none⟩, emptyDisk,
        fun _ => false, by simp, ?_⟩
      simp only [ensureModel, not_isModelComplete_emptyDisk]
      rfl

/-- `id` is not confused with `other`: whatever `ensure_model(id)` returned is taken for
`id` and not for `other`, and the two have different directories. -/
def Identifies (m : ModelManager) (id other : String) : Prop :=
  (∀ p, m.EnsuredPath id p →
    modelMatches p other = false ∧ modelMatches p id = true) ∧
    m.cachedPath id ≠ m.cachedPath other

variable {m : ModelManager} {id other : String}

-- ════════════════════════════════════════════════════════════════════════
-- The directory of an id
-- ════════════════════════════════════════════════════════════════════════

theorem mem_replaceSlashes_iff {s : String} {c : Char} : c ∈ (replaceSlashes s).toList ↔
    (c ∈ s.toList ∧ c ≠ '/') ∨ (c = '-' ∧ '/' ∈ s.toList) := by
  simp only [replaceSlashes, String.toList_ofList, List.mem_flatMap]
  constructor
  · rintro ⟨d, hd, hc⟩
    by_cases hslash : d = '/'
    · rw [if_pos hslash] at hc
      exact Or.inr ⟨by simpa using hc, hslash ▸ hd⟩
    · rw [if_neg hslash] at hc
      obtain rfl := List.mem_singleton.mp hc
      exact Or.inl ⟨hd, hslash⟩
  · rintro (⟨hc, hslash⟩ | ⟨rfl, hslash⟩)
    · exact ⟨c, hc, by simp [hslash]⟩
    · exact ⟨'/', hslash, by simp⟩

theorem replaceSlashes_of_not_mem {s : String} (h : '/' ∉ s.toList) : replaceSlashes s = s := by
  have hself : ∀ c ∈ s.toList, (if c = '/' then ['-', '-'] else [c]) = [c] := by
    intro c hc
    rw [if_neg]
    rintro rfl
    exact h hc
  apply String.ext
  rw [replaceSlashes, String.toList_ofList, List.flatMap_congr hself]
  simp

/-- Only an id itself has a name without dashes. -/
theorem replaceSlashes_eq_iff {s t : String} (hslash : '/' ∉ t.toList) (hdash : '-' ∉ t.toList) :
    replaceSlashes s = t ↔ s = t := by
  constructor
  · rintro rfl
    have hs : '/' ∉ s.toList := by
      intro hmem
      exact hdash (mem_replaceSlashes_iff.mpr (Or.inr ⟨rfl, hmem⟩))
    exact (replaceSlashes_of_not_mem hs).symm
  · rintro rfl
    exact replaceSlashes_of_not_mem hslash

/-- An id whose directory has a name of its own below `cache_dir`. -/
def Named (id : String) : Prop := id ≠ "." ∧ ∃ c ∈ id.toList, c ≠ Char.ofNat 92

theorem cachedPath_eq_cacheDir (h : id = "" ∨ id = ".") : m.cachedPath id = m.cacheDir := by
  obtain ⟨habs, hparts⟩ := m.cachedPath_parts id
  rw [PurePath.ext_iff_parts habs, hparts]
  obtain rfl | rfl := h <;> simp [replaceSlashes]

theorem cachedPath_parts_of_ne (h : id ≠ "") (h' : id ≠ ".") :
    (m.cachedPath id).parts = m.cacheDir.parts ++ [replaceSlashes id] := by
  rw [(m.cachedPath_parts id).2, if_pos]
  rw [ne_eq, ne_eq, replaceSlashes_eq_iff (by decide) (by decide),
    replaceSlashes_eq_iff (by decide) (by decide)]
  exact ⟨h, h'⟩

theorem Named.ne_empty (h : Named id) : id ≠ "" := by
  rintro rfl
  obtain ⟨c, hc, -⟩ := h.2
  simp at hc

theorem Named.exists_not_separator (h : Named id) :
    ∃ c ∈ (replaceSlashes id).toList, isSeparator c = false := by
  obtain ⟨c, hc, hback⟩ := h.2
  by_cases hslash : c = '/'
  · exact ⟨'-', mem_replaceSlashes_iff.mpr (Or.inr ⟨rfl, hslash ▸ hc⟩), by decide⟩
  · exact ⟨c, mem_replaceSlashes_iff.mpr (Or.inl ⟨hc, hslash⟩), by simp [isSeparator, hslash, hback]⟩

/-- **The name in the cache**: the directory of a named id ends in the name that a request
for the id is compared by. -/
theorem finalName_cachedPath (h : Named id) :
    finalName (m.cachedPath id).toStr = finalName (replaceSlashes id) := by
  obtain hown | ⟨dir, hdir⟩ :=
    PurePath.exists_toList_toStr (cachedPath_parts_of_ne h.ne_empty h.1 (m := m))
  · rw [finalName, hown, finalName]
  · rw [finalName, hdir, lastRun_append_cons (by decide) h.exists_not_separator, finalName]

/-- Two ids have one directory if they have one name, or both have none. -/
theorem cachedPath_eq_iff : m.cachedPath id = m.cachedPath other ↔
    replaceSlashes id = replaceSlashes other ∨
      ((id = "" ∨ id = ".") ∧ (other = "" ∨ other = ".")) := by
  constructor
  · intro h
    have hparts := congrArg PurePath.parts h
    by_cases hid : id = "" ∨ id = "." <;> by_cases hother : other = "" ∨ other = "."
    · exact Or.inr ⟨hid, hother⟩
    · obtain ⟨hne, hne'⟩ := not_or.mp hother
      simp [cachedPath_eq_cacheDir hid, cachedPath_parts_of_ne hne hne'] at hparts
    · obtain ⟨hne, hne'⟩ := not_or.mp hid
      simp [cachedPath_eq_cacheDir hother, cachedPath_parts_of_ne hne hne'] at hparts
    · obtain ⟨hne, hne'⟩ := not_or.mp hid
      obtain ⟨hne₂, hne₂'⟩ := not_or.mp hother
      rw [cachedPath_parts_of_ne hne hne', cachedPath_parts_of_ne hne₂ hne₂'] at hparts
      exact Or.inl (by simpa using hparts)
  · rintro (h | ⟨hid, hother⟩)
    · rw [cachedPath, cachedPath, h]
    · rw [cachedPath_eq_cacheDir hid, cachedPath_eq_cacheDir hother]

-- ════════════════════════════════════════════════════════════════════════
-- Which ids are told apart
-- ════════════════════════════════════════════════════════════════════════

/-- The directory of the id is taken for the id: the id has a name, or `cache_dir`
happens to be called like the nameless id. -/
def Recognised (m : ModelManager) (id : String) : Prop :=
  Named id ∨ (id = "." ∧ finalName m.cacheDir.toStr = ['.']) ∨
    (id ≠ "" ∧ (∀ c ∈ id.toList, c = Char.ofNat 92) ∧
      ∀ n ∈ m.cacheDir.parts, ∀ c ∈ n.toList, isSeparator c = true)

theorem named_or (id : String) : Named id ∨ id = "." ∨ ∀ c ∈ id.toList, c = Char.ofNat 92 := by
  by_cases hdot : id = "."
  · exact Or.inr (Or.inl hdot)
  · by_cases hback : ∀ c ∈ id.toList, c = Char.ofNat 92
    · exact Or.inr (Or.inr hback)
    · push Not at hback
      exact Or.inl ⟨hdot, hback⟩

/-- Without names, the final name of the directory is empty when that of `cache_dir` is. -/
theorem finalName_cachedPath_eq_nil_iff (hid : id ≠ "") (hback : ∀ c ∈ id.toList, c = Char.ofNat 92) :
    finalName (m.cachedPath id).toStr = [] ↔
      ∀ n ∈ m.cacheDir.parts, ∀ c ∈ n.toList, isSeparator c = true := by
  have hdot : id ≠ "." := by
    rintro rfl
    exact absurd (hback '.' (by simp)) (by decide)
  have hslash : '/' ∉ id.toList := fun h => absurd (hback '/' h) (by decide)
  have hparts := cachedPath_parts_of_ne hid hdot (m := m)
  have hne : (m.cachedPath id).parts ≠ [] := by simp [hparts]
  rw [finalName, lastRun_eq_nil_iff]
  constructor
  · intro h n hn c hc
    by_cases hcs : c = '/'
    · simp [isSeparator, hcs]
    · exact h c ((PurePath.mem_toStr_iff hne hcs).mpr ⟨n, by simp [hparts, hn], hc⟩)
  · intro h c hc
    by_cases hcs : c = '/'
    · simp [isSeparator, hcs]
    · obtain ⟨n, hn, hcn⟩ := (PurePath.mem_toStr_iff hne hcs).mp hc
      rw [hparts, replaceSlashes_of_not_mem hslash, List.mem_append, List.mem_singleton] at hn
      obtain hn | rfl := hn
      · exact h n hn c hcn
      · simp [isSeparator, hback c hcn]

theorem recognised_iff : m.Recognised id ↔
    id ≠ "" ∧ finalName (m.cachedPath id).toStr = finalName (replaceSlashes id) := by
  obtain hnamed | rfl | hback := named_or id
  · exact ⟨fun _ => ⟨hnamed.ne_empty, finalName_cachedPath hnamed⟩, fun _ => Or.inl hnamed⟩
  · have hdots : finalName (replaceSlashes ".") = ['.'] := by decide
    rw [cachedPath_eq_cacheDir (Or.inr rfl), hdots]
    simp [Recognised, Named]
  · have hslash : '/' ∉ id.toList := fun h => absurd (hback '/' h) (by decide)
    have hnil : finalName (replaceSlashes id) = [] := by
      rw [replaceSlashes_of_not_mem hslash, finalName, lastRun_eq_nil_iff]
      intro c hc
      simp [isSeparator, hback c hc]
    have hnot : ¬ Named id := fun h => h.2.elim fun c hc => hc.2 (hback c hc.1)
    have hdot : id ≠ "." := by
      rintro rfl
      exact absurd (hback '.' (by simp)) (by decide)
    rw [hnil]
    constructor
    · rintro (h | h | ⟨hid, -, hdir⟩)
      · exact absurd h hnot
      · exact absurd h.1 hdot
      · exact ⟨hid, (finalName_cachedPath_eq_nil_iff hid hback).mpr hdir⟩
    · rintro ⟨hid, hfinal⟩
      exact Or.inr (Or.inr ⟨hid, hback, (finalName_cachedPath_eq_nil_iff hid hback).mp hfinal⟩)

/-- **Completeness**: both forms are taken for the id when it is recognised. -/
theorem matches_self_iff : (∀ p, m.EnsuredPath id p → modelMatches p id = true) ↔
    m.Recognised id := by
  simp only [ensuredPath_iff, forall_eq_or_imp, forall_eq, modelMatches_eq_true_iff, recognised_iff]
  constructor
  · rintro ⟨⟨-, hdir⟩, hid, -⟩
    refine ⟨hid, hdir.elim (fun hself => ?_) fun h => h⟩
    obtain hnamed | rfl | hback := named_or id
    · exact finalName_cachedPath hnamed
    · rw [hself]
      decide
    · rw [hself, replaceSlashes_of_not_mem fun h => absurd (hback '/' h) (by decide)]
  · rintro ⟨hid, hdir⟩
    exact ⟨⟨PurePath.toStr_ne_empty _, Or.inr hdir⟩, hid, Or.inl trivial⟩

/-- `id` and `other` differ in everything they are compared by. -/
structure ToldApart (m : ModelManager) (id other : String) : Prop where
  recognised : m.Recognised id
  /-- the names of their directories, cut at backslashes -/
  names : finalName (replaceSlashes id) ≠ finalName (replaceSlashes other)
  /-- the last component of the one id, and the name of the other -/
  fallback : finalName id ≠ finalName (replaceSlashes other)
  /-- `other` is not the path of the directory itself -/
  path : other ≠ (m.cachedPath id).toStr
  /-- the two are not the nameless ids of `cache_dir` itself -/
  directory : ¬ (id = "." ∧ other = "")

/-- **Soundness**: a recognised id is not confused with `other` when the two differ in
everything they are compared by. -/
theorem not_matches_iff (h : id ≠ other) (hrec : m.Recognised id) :
    ((∀ p, m.EnsuredPath id p → modelMatches p other = false) ∧
      m.cachedPath id ≠ m.cachedPath other) ↔ m.ToldApart id other := by
  obtain ⟨hid, hdir⟩ := recognised_iff.mp hrec
  have hne := PurePath.toStr_ne_empty (m.cachedPath id)
  simp only [ensuredPath_iff, forall_eq_or_imp, forall_eq, modelMatches_eq_false_iff hne,
    modelMatches_eq_false_iff hid, hdir, cachedPath_eq_iff, ne_eq, not_or, not_and]
  constructor
  · rintro ⟨⟨⟨hpath, hnames⟩, -, hfallback⟩, -, hnone⟩
    refine ⟨hrec, hnames, hfallback, fun heq => hpath heq.symm, ?_⟩
    rintro ⟨hdot, hempty⟩
    exact (hnone (Or.inr hdot)).1 hempty
  · rintro ⟨-, hnames, hfallback, hpath, hnone⟩
    refine ⟨⟨⟨fun heq => hpath heq.symm, hnames⟩, h, hfallback⟩, ?_, ?_⟩
    · intro heq
      exact hnames (congrArg finalName heq)
    · rintro (hempty | hdot)
      · exact absurd hempty hid
      · exact ⟨fun hempty => hnone ⟨hdot, hempty⟩, fun hdot' => h (hdot.trans hdot'.symm)⟩

/-- **Exact condition**: `id` is not confused with another id if and only if it is
recognised and the two differ in everything they are compared by. -/
theorem identifies_iff (m : ModelManager) {id other : String} (h : id ≠ other) :
    m.Identifies id other ↔ m.ToldApart id other := by
  constructor
  · rintro ⟨hforms, hdirs⟩
    have hrec := matches_self_iff.mp fun p hp => (hforms p hp).2
    exact (not_matches_iff h hrec).mp ⟨fun p hp => (hforms p hp).1, hdirs⟩
  · intro hapart
    obtain ⟨hnot, hdirs⟩ := (not_matches_iff h hapart.recognised).mpr hapart
    have hself := matches_self_iff.mpr hapart.recognised
    exact ⟨fun p hp => ⟨hnot p hp, hself p hp⟩, hdirs⟩

theorem identifies_ownDirectories : "org/a" ≠ "org/b" ∧
    offlineManager.Identifies "org/a" "org/b" := by
  refine ⟨by decide, (offlineManager.identifies_iff (by decide)).mpr ?_⟩
  exact ⟨Or.inl ⟨by decide, 'o', by decide, by decide⟩, by decide +kernel, by decide +kernel,
    by decide +kernel, by decide +kernel⟩

/-- An engine that runs `org/b` from its id answers requests for `b`, and `a/b` shares its
directory with `a--b`. -/
theorem lastComponent_not_identifies : ¬ offlineManager.Identifies "org/b" "b" ∧
    offlineManager.EnsuredPath "org/b" "org/b" ∧ modelMatches "org/b" "b" = true ∧
      offlineManager.cachedPath "a/b" = offlineManager.cachedPath "a--b" := by
  have hform : offlineManager.EnsuredPath "org/b" "org/b" := ensuredPath_iff.mpr (Or.inr rfl)
  have htaken : modelMatches "org/b" "b" = true := by decide +kernel
  have hname : replaceSlashes "a/b" = replaceSlashes "a--b" := by decide +kernel
  refine ⟨fun h => ?_, hform, htaken, cachedPath_eq_iff.mpr (Or.inl hname)⟩
  have hnot := (h.1 "org/b" hform).1
  rw [htaken] at hnot
  exact absurd hnot (by decide)

-- ════════════════════════════════════════════════════════════════════════
-- Ids without backslashes
-- ════════════════════════════════════════════════════════════════════════

/-- An id as a model hub has them. -/
def Plain (id : String) : Prop := id ≠ "" ∧ id ≠ "." ∧ Char.ofNat 92 ∉ id.toList

theorem Plain.named (h : Plain id) : Named id := by
  obtain hnamed | hdot | hback := named_or id
  · exact hnamed
  · exact absurd hdot h.2.1
  · obtain ⟨c, hc⟩ := List.exists_mem_of_ne_nil id.toList (by simpa using h.1)
    exact absurd (hback c hc ▸ hc) h.2.2

theorem Plain.finalName_replaceSlashes (h : Plain id) :
    finalName (replaceSlashes id) = (replaceSlashes id).toList := by
  apply lastRun_of_forall_not
  intro c hc
  obtain ⟨hmem, hslash⟩ | ⟨rfl, -⟩ := mem_replaceSlashes_iff.mp hc
  · have hback : c ≠ Char.ofNat 92 := by
      rintro rfl
      exact h.2.2 hmem
    simp [isSeparator, hslash, hback]
  · decide

/-- **Plain ids** are told apart when their directories have different names, the last
component of the one is not the name of the other, and the other is not the directory's
own path. -/
theorem toldApart_iff_of_plain (hid : Plain id) (hother : Plain other) :
    m.ToldApart id other ↔ replaceSlashes id ≠ replaceSlashes other ∧
      finalName id ≠ (replaceSlashes other).toList ∧ other ≠ (m.cachedPath id).toStr := by
  have hnames : finalName (replaceSlashes id) ≠ finalName (replaceSlashes other) ↔
      replaceSlashes id ≠ replaceSlashes other := by
    rw [hid.finalName_replaceSlashes, hother.finalName_replaceSlashes, ne_eq, String.toList_inj]
  rw [← hnames, ← hother.finalName_replaceSlashes]
  constructor
  · rintro ⟨-, hnames', hfallback, hpath, -⟩
    exact ⟨hnames', hfallback, hpath⟩
  · rintro ⟨hnames', hfallback, hpath⟩
    exact ⟨Or.inl hid.named, hnames', hfallback, hpath, fun h => hid.2.1 h.1⟩

end OpenModel.Model.ModelManager
