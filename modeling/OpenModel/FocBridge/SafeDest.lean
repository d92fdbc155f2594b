import OpenModel.FocBridge.DownloadModel

/-!
# Confinement of the destination

`resolveSafeDest` on the strings that it compares: the resolved destination is the base or
starts with the base and a separator. On names from the root this is the prefix order, as no
name has a separator.

## Main results

- `SafeDest.exact_of_ne`: what the comparison of strings says about names, for every destination
  but the empty one
- `SafeDest.resolveSafeDest_toOption`: on locations it is the check of the download
-/

namespace OpenModel.FocBridge.SafeDest

-- ════════════════════════════════════════════════════════════════════════
-- Path strings
-- ════════════════════════════════════════════════════════════════════════

def isAbsolute (p : String) : Bool := p.toList.head? == some '/'

/-- Each path behind the ones before it; an absolute one starts anew. -/
def joinPaths (cwd : String) (paths : List String) : String :=
  paths.foldl (fun l p => if p = "" then l else if isAbsolute p then p else l ++ "/" ++ p) cwd

/-- The names of a path, with `..` resolved. -/
def normalize (p : String) : Location :=
  (PurePath.components p).foldl (fun l c => if c = ".." then l.dropLast else l ++ [c]) []

/-- The absolute path string of a location. -/
def pathString (l : Location) : String :=
  if l = [] then "/" else String.ofList (l.flatMap fun c => '/' :: c.toList)

/-- `path.resolve(...paths)` in the working directory `cwd`. -/
def resolve (cwd : String) (paths : List String) : String :=
  pathString (normalize (joinPaths cwd paths))

/-- `s.startsWith(t)` -/
def startsWith (s t : String) : Bool := t.toList.isPrefixOf s.toList

def resolveSafeDest (cwd destPath baseDir : String) : Except String String :=
  if destPath = "" then .error "destPath must be a non-empty string"
  else
    let base := resolve cwd [baseDir]
    let resolved := resolve cwd [base, destPath]
    if resolved ≠ base ∧ ¬ startsWith resolved (base ++ "/") then
      .error "destPath escapes the allowed base directory"
    else .ok resolved

-- ════════════════════════════════════════════════════════════════════════
-- Names
-- ════════════════════════════════════════════════════════════════════════

/-- Names that a path string keeps apart. -/
def Plain (l : Location) : Prop := ∀ c ∈ l, c ≠ "" ∧ c ≠ "." ∧ c ≠ ".." ∧ '/' ∉ c.toList

variable {cwd destPath baseDir : String} {l l' base : Location} {p q : String}

theorem components_append : PurePath.components (p ++ "/" ++ q) =
    PurePath.components p ++ PurePath.components q := by
  have hsplit : (p ++ "/" ++ q).toList.splitOn '/' = p.toList.splitOn '/' ++ q.toList.splitOn '/' := by
    rw [String.toList_append, String.toList_append, List.append_assoc]
    exact List.splitOn_append_cons_self _ _
  simp only [PurePath.components, hsplit, List.map_append, List.filter_append]

/-- A part of a split list does not contain what it was split at. -/
theorem not_mem_of_mem_splitOn {α : Type*} [BEq α] [LawfulBEq α] {a : α} {xs part : List α}
    (h : part ∈ xs.splitOn a) : a ∉ part := by
  induction xs generalizing part with
  | nil =>
    rw [List.splitOn_nil, List.mem_singleton] at h
    rw [h]
    exact List.not_mem_nil
  | cons x xs ih =>
    rw [List.splitOn_cons_eq_if_modifyHead] at h
    split_ifs at h with hx
    · rcases List.mem_cons.mp h with rfl | h
      · exact List.not_mem_nil
      · exact ih h
    · obtain ⟨first, rest, hsplit⟩ := List.exists_cons_of_ne_nil (List.splitOn_ne_nil a xs)
      rw [hsplit, List.modifyHead_cons] at h
      rcases List.mem_cons.mp h with rfl | h
      · rintro (_ | ⟨_, hmem⟩)
        · exact hx (beq_self_eq_true a)
        · exact ih (by rw [hsplit]; exact List.mem_cons_self) hmem
      · exact ih (by rw [hsplit]; exact List.mem_cons_of_mem _ h)

theorem not_mem_of_mem_components {c : String} (h : c ∈ PurePath.components p) :
    c ≠ "" ∧ c ≠ "." ∧ '/' ∉ c.toList := by
  obtain ⟨hmem, hne⟩ := List.mem_filter.mp h
  obtain ⟨part, hpart, rfl⟩ := List.mem_map.mp hmem
  obtain ⟨hempty, hdot⟩ := of_decide_eq_true hne
  exact ⟨hempty, hdot, by rw [String.toList_ofList]; exact not_mem_of_mem_splitOn hpart⟩

/-- Resolving `..` gives plain names. -/
theorem plain_foldl {cs : List String} (hl : Plain l)
    (hcs : ∀ c ∈ cs, c ≠ "" ∧ c ≠ "." ∧ '/' ∉ c.toList) :
    Plain (cs.foldl (fun l c => if c = ".." then l.dropLast else l ++ [c]) l) := by
  induction cs generalizing l with
  | nil => exact hl
  | cons c cs ih =>
    refine ih ?_ fun d hd => hcs d (List.mem_cons_of_mem _ hd)
    show Plain (if c = ".." then l.dropLast else l ++ [c])
    split_ifs with hc
    · exact fun d hd => hl d (List.mem_of_mem_dropLast hd)
    · intro d hd
      rcases List.mem_append.mp hd with hd | hd
      · exact hl d hd
      · obtain rfl := List.mem_singleton.mp hd
        obtain ⟨h1, h2, h3⟩ := hcs d List.mem_cons_self
        exact ⟨h1, h2, hc, h3⟩

theorem plain_normalize : Plain (normalize p) :=
  plain_foldl (fun _ h => absurd h List.not_mem_nil) fun _ => not_mem_of_mem_components

/-- A path of plain names stays as it is. -/
theorem foldl_plain {cs : List String} (hcs : Plain cs) :
    cs.foldl (fun l c => if c = ".." then l.dropLast else l ++ [c]) l = l ++ cs := by
  induction cs generalizing l with
  | nil => exact (List.append_nil l).symm
  | cons c cs ih =>
    rw [List.foldl_cons, if_neg (hcs c List.mem_cons_self).2.2.1,
      ih fun d hd => hcs d (List.mem_cons_of_mem _ hd), List.append_assoc, List.singleton_append]

/-- Behind each separator stands a name. -/
theorem splitOn_flatMap (h : Plain l) :
    (l.flatMap fun c => '/' :: c.toList).splitOn '/' = [] :: l.map String.toList := by
  induction l with
  | nil => rfl
  | cons c cs ih =>
    have hc := (h c List.mem_cons_self).2.2.2
    have hcs := ih fun d hd => h d (List.mem_cons_of_mem _ hd)
    rw [List.flatMap_cons, List.cons_append, List.splitOn_cons_eq_if_modifyHead,
      if_pos (beq_self_eq_true '/'), List.map_cons]
    congr 1
    cases cs with
    | nil => rw [List.flatMap_nil, List.append_nil, List.splitOn_eq_singleton hc]; rfl
    | cons d ds =>
      rw [List.flatMap_cons, List.cons_append, List.splitOn_cons_eq_if_modifyHead,
        if_pos (beq_self_eq_true '/'), List.cons.injEq] at hcs
      rw [List.flatMap_cons, List.cons_append, List.splitOn_append_cons_self_of_not_mem hc, hcs.2]

theorem pathString_toList (h : l ≠ []) :
    (pathString l).toList = l.flatMap fun c => '/' :: c.toList := by
  rw [pathString, if_neg h, String.toList_ofList]

theorem components_pathString (h : Plain l) : PurePath.components (pathString l) = l := by
  by_cases hl : l = []
  · subst hl
    decide +kernel
  · have hplain : l.filter (fun c => c ≠ "" ∧ c ≠ ".") = l := by
      refine List.filter_eq_self.mpr fun c hc => ?_
      exact decide_eq_true ⟨(h c hc).1, (h c hc).2.1⟩
    rw [PurePath.components, pathString_toList hl, splitOn_flatMap h, List.map_cons, List.map_map,
      List.filter_cons_of_neg (by decide)]
    rw [show String.ofList ∘ String.toList = id from funext fun _ => String.ofList_toList, List.map_id]
    exact hplain

theorem normalize_pathString (h : Plain l) : normalize (pathString l) = l := by
  rw [normalize, components_pathString h, foldl_plain h, List.nil_append]

theorem pathString_inj (hl : Plain l) (hl' : Plain l') : pathString l = pathString l' ↔ l = l' :=
  ⟨fun heq => by rw [← normalize_pathString hl, heq, normalize_pathString hl'], fun heq => heq ▸ rfl⟩

/-- **Prefixes**: a path string starts with another and a separator if and only if its names go
on behind the other's. -/
theorem startsWith_iff (hbase : Plain base) (hne : base ≠ []) (hl : Plain l) :
    startsWith (pathString l) (pathString base ++ "/") ↔ base <+: l ∧ base ≠ l := by
  rw [startsWith, List.isPrefixOf_iff_prefix, String.toList_append, pathString_toList hne]
  constructor
  · rintro ⟨rest, hrest⟩
    have hnil : l ≠ [] := by
      rintro rfl
      obtain ⟨c, cs, rfl⟩ := List.exists_cons_of_ne_nil hne
      have hlen := congrArg List.length hrest
      simp [pathString] at hlen
    have hsplit := congrArg (List.splitOn '/') hrest
    rw [pathString_toList hnil, splitOn_flatMap hl, List.append_assoc] at hsplit
    rw [show "/".toList ++ rest = '/' :: rest from rfl, List.splitOn_append_cons_self,
      splitOn_flatMap hbase, List.cons_append, List.cons.injEq] at hsplit
    obtain ⟨front, back, rfl, hfront, hback⟩ := List.map_eq_append_iff.mp hsplit.2.symm
    obtain rfl : front = base :=
      List.map_injective_iff.mpr (fun _ _ h => String.toList_injective h) hfront
    refine ⟨List.prefix_append _ _, fun heq => ?_⟩
    rw [List.self_eq_append_right.mp heq] at hback
    exact List.splitOn_ne_nil '/' rest hback.symm
  · rintro ⟨⟨rest, rfl⟩, hne'⟩
    obtain ⟨c, cs, rfl⟩ := List.exists_cons_of_ne_nil (l := rest) fun h =>
      hne' (by rw [h, List.append_nil])
    rw [pathString_toList (by simp), List.flatMap_append, List.flatMap_cons]
    exact ⟨c.toList ++ cs.flatMap fun c => '/' :: c.toList, by simp⟩

-- ════════════════════════════════════════════════════════════════════════
-- Destinations
-- ════════════════════════════════════════════════════════════════════════

/-- Where the destination is, seen from the base. -/
def destination (destPath baseDir : String) : Location :=
  pathResolve (normalize baseDir) (PurePath.parse destPath)

theorem plain_destination : Plain (destination destPath baseDir) := by
  refine plain_foldl ?_ fun _ => not_mem_of_mem_components
  split_ifs
  · exact fun _ h => absurd h List.not_mem_nil
  · exact plain_normalize

theorem resolve_base (h : isAbsolute baseDir) :
    resolve cwd [baseDir] = pathString (normalize baseDir) := by
  have hne : baseDir ≠ "" := by
    rintro rfl
    cases h
  rw [resolve, joinPaths, List.foldl_cons, List.foldl_nil, if_neg hne, if_pos h]

theorem isAbsolute_pathString : isAbsolute (pathString l) := by
  by_cases h : l = []
  · subst h
    rfl
  · obtain ⟨c, cs, rfl⟩ := List.exists_cons_of_ne_nil h
    rw [isAbsolute, pathString_toList h]
    rfl

theorem resolve_destination (h : isAbsolute baseDir) (hdest : destPath ≠ "") :
    resolve cwd [resolve cwd [baseDir], destPath] = pathString (destination destPath baseDir) := by
  rw [resolve_base h]
  have hne : pathString (normalize baseDir) ≠ "" := by
    intro hempty
    have habs : isAbsolute (pathString (normalize baseDir)) := isAbsolute_pathString
    rw [hempty] at habs
    cases habs
  rw [resolve, joinPaths, List.foldl_cons, List.foldl_cons, List.foldl_nil, if_neg hne,
    if_pos isAbsolute_pathString, if_neg hdest]
  congr 1
  rw [destination, pathResolve]
  by_cases habs : isAbsolute destPath
  · rw [if_pos habs, if_pos (show (PurePath.parse destPath).absolute = true from habs)]
    rfl
  · rw [if_neg habs, if_neg (show ¬ (PurePath.parse destPath).absolute = true from habs), normalize,
      components_append, components_pathString plain_normalize, List.foldl_append,
      foldl_plain plain_normalize]
    rfl

/-- The destination is the base or below it, and nothing else is let through. -/
structure Exact (cwd destPath baseDir : String) : Prop where
  returns : ∀ path, resolveSafeDest cwd destPath baseDir = .ok path ↔
    normalize baseDir <+: destination destPath baseDir ∧
      path = pathString (destination destPath baseDir)
  throws : ¬ normalize baseDir <+: destination destPath baseDir →
    ∃ message, resolveSafeDest cwd destPath baseDir = .error message

theorem resolveSafeDest_eq (h : isAbsolute baseDir) (hroot : normalize baseDir ≠ [])
    (hdest : destPath ≠ "") : resolveSafeDest cwd destPath baseDir =
      if normalize baseDir <+: destination destPath baseDir then
        .ok (pathString (destination destPath baseDir))
      else .error "destPath escapes the allowed base directory" := by
  rw [resolveSafeDest, if_neg hdest]
  dsimp only
  rw [resolve_destination h hdest, resolve_base h]
  have hwithin : (pathString (destination destPath baseDir) ≠ pathString (normalize baseDir) ∧
      ¬ startsWith (pathString (destination destPath baseDir))
        (pathString (normalize baseDir) ++ "/")) ↔
      ¬ normalize baseDir <+: destination destPath baseDir := by
    rw [ne_eq, pathString_inj plain_destination plain_normalize,
      startsWith_iff plain_normalize hroot plain_destination]
    constructor
    · rintro ⟨hne, hnot⟩ hle
      exact hnot ⟨hle, fun heq => hne heq.symm⟩
    · intro hnot
      exact ⟨fun heq => hnot (heq ▸ List.prefix_refl _), fun hle => hnot hle.1⟩
  by_cases hle : normalize baseDir <+: destination destPath baseDir
  · rw [if_pos hle, if_neg (fun hout => hwithin.mp hout hle)]
  · rw [if_neg hle, if_pos (hwithin.mpr hle)]

/-- **Confinement**: for every base but the root and every destination but the empty one. -/
theorem exact_of_ne (h : isAbsolute baseDir) (hroot : normalize baseDir ≠ [])
    (hdest : destPath ≠ "") : Exact cwd destPath baseDir := by
  have heq : resolveSafeDest cwd destPath baseDir = _ := resolveSafeDest_eq h hroot hdest
  refine ⟨fun path => ?_, fun hnot => ⟨_, heq.trans (if_neg hnot)⟩⟩
  rw [heq]
  split_ifs with hle
  · rw [Except.ok.injEq]
    exact ⟨fun hpath => ⟨hle, hpath.symm⟩, fun hpath => hpath.2.symm⟩
  · exact ⟨fun hpath => (by cases hpath), fun hpath => absurd hpath.1 hle⟩

theorem exact_lookAlike : isAbsolute "/models/" ∧ normalize "/models/" ≠ [] ∧
    Exact "/" "../models-evil/./x" "/models/" := by
  have hroot : normalize "/models/" ≠ [] := by decide +kernel
  exact ⟨rfl, hroot, exact_of_ne rfl hroot (by decide)⟩

/-- Nothing is resolved from an empty destination. -/
theorem empty_not_exact : ¬ Exact "/" "" "/models" := by
  intro h
  have hok := (h.returns "/models").mpr (by decide +kernel)
  rw [resolveSafeDest, if_pos rfl] at hok
  cases hok

/-- On locations, this is the check of the download. -/
theorem resolveSafeDest_toOption (h : isAbsolute baseDir) (hroot : normalize baseDir ≠ []) :
    (resolveSafeDest cwd destPath baseDir).toOption =
      (FocBridge.resolveSafeDest destPath (normalize baseDir)).map pathString := by
  by_cases hdest : destPath = ""
  · rw [resolveSafeDest, FocBridge.resolveSafeDest, if_pos hdest]
    simp [hdest, Except.toOption]
  · rw [resolveSafeDest_eq h hroot hdest, FocBridge.resolveSafeDest, if_neg hdest]
    have hwithin : (pathResolve (normalize baseDir) (PurePath.parse destPath) ≠ normalize baseDir ∧
        ¬ (normalize baseDir ≠ [] ∧
          normalize baseDir <+: pathResolve (normalize baseDir) (PurePath.parse destPath))) ↔
        ¬ normalize baseDir <+: destination destPath baseDir := by
      constructor
      · rintro ⟨-, hnot⟩ hle
        exact hnot ⟨hroot, hle⟩
      · intro hnot
        exact ⟨fun heq => hnot (heq ▸ List.prefix_refl _), fun hle => hnot hle.2⟩
    by_cases hle : normalize baseDir <+: destination destPath baseDir
    · rw [if_pos hle, if_neg fun hout => hwithin.mp hout hle]
      rfl
    · rw [if_neg hle, if_pos (hwithin.mpr hle)]
      rfl

end OpenModel.FocBridge.SafeDest
