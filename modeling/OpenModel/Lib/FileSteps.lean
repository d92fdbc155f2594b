import OpenModel.Lib.FileSystem

/-!
# Single steps on a directory tree

What a process does to a tree between two instructions: it removes one entry, it writes
one entry, or it renames an entry of the root with all that is below it. Anything longer
is a sequence of such steps, and can stop between any two.

## Main results

- `lookup_erase`, `lookup_of_put`, `lookup_renameEntry`: what each step does
- `resolve_mono`: a path that resolves in a part of a tree resolves alike in the whole
-/

def FileNode.isSymlink : FileNode → Bool
  | .symlink _ => true
  | _ => false

namespace FileSystem

variable {fs fs' : FileSystem} {q r cwd : List String} {x : FileNode} {p : PurePath} {a b n : String}

theorem lookup_ne_none_iff (hq : q ≠ []) : fs.lookup q ≠ none ↔ q ∈ fs.locations := by
  simp only [lookup, if_neg hq]
  split_ifs with hmem
  · simp [hmem]
  · simp [hmem]

/-- What exists is in a directory. -/
theorem lookup_dropLast (h : fs.lookup q ≠ none) : fs.lookup q.dropLast = some .dir := by
  by_cases hq : q = []
  · rw [hq]
    rfl
  · obtain hroot | ⟨hmem, hdir⟩ := fs.parent_dir q ((lookup_ne_none_iff hq).mp h)
    · rw [hroot]
      rfl
    · by_cases hnil : q.dropLast = []
      · rw [hnil]
        rfl
      · rw [lookup, if_neg hnil, if_pos hmem, hdir]

theorem lookup_ne_none_of_prefix (hpre : q <+: r) (h : fs.lookup r ≠ none) :
    fs.lookup q ≠ none := by
  obtain ⟨rest, rfl⟩ := hpre
  induction rest using List.reverseRecOn with
  | nil => rwa [List.append_nil] at h
  | append_singleton rest n ih =>
    apply ih
    have hdir := lookup_dropLast h
    rw [← List.append_assoc, List.dropLast_append_of_ne_nil (by simp)] at hdir
    rw [show (q ++ rest ++ [n].dropLast) = q ++ rest by simp] at hdir
    rw [hdir]
    simp

-- ════════════════════════════════════════════════════════════════════════
-- Removal
-- ════════════════════════════════════════════════════════════════════════

/-- Nothing is below the location. -/
def IsLeaf (fs : FileSystem) (q : List String) : Prop := ∀ r ∈ fs.locations, q <+: r → r = q

instance (fs : FileSystem) (q : List String) : Decidable (fs.IsLeaf q) :=
  inferInstanceAs (Decidable (∀ r ∈ fs.locations, q <+: r → r = q))

/-- Remove a location, with what is below it. -/
def erase (fs : FileSystem) (q : List String) : FileSystem where
  locations := fs.locations.filter fun r => ¬ q <+: r
  node := fs.node
  parent_dir r hr := by
    obtain ⟨hmem, hkept⟩ := Finset.mem_filter.mp hr
    obtain hroot | ⟨hpar, hdir⟩ := fs.parent_dir r hmem
    · exact Or.inl hroot
    · refine Or.inr ⟨Finset.mem_filter.mpr ⟨hpar, ?_⟩, hdir⟩
      intro hpre
      exact hkept (hpre.trans r.dropLast_prefix)

theorem lookup_erase (hq : q ≠ []) (r : List String) :
    (fs.erase q).lookup r = if q <+: r then none else fs.lookup r := by
  by_cases hr : r = []
  · rw [hr, if_neg (by simpa using hq)]
    rfl
  · by_cases hpre : q <+: r
    · simp [lookup, erase, hr, hpre]
    · simp [lookup, erase, hr, hpre]

/-- What is not there can be removed. -/
theorem lookup_erase_of_none (hq : q ≠ []) (h : fs.lookup q = none) (r : List String) :
    (fs.erase q).lookup r = fs.lookup r := by
  rw [lookup_erase hq]
  split_ifs with hpre
  · by_contra hne
    exact lookup_ne_none_of_prefix hpre (Ne.symm hne) h
  · rfl

-- ════════════════════════════════════════════════════════════════════════
-- Writing
-- ════════════════════════════════════════════════════════════════════════

/-- The entry can be written: its parent is a directory, and a directory neither replaces
something else nor is replaced. -/
def Accepts (fs : FileSystem) (q : List String) (x : FileNode) : Prop :=
  q ≠ [] ∧ fs.lookup q.dropLast = some .dir ∧ ∀ y ∈ fs.lookup q, y = .dir ↔ x = .dir

instance (fs : FileSystem) (q : List String) (x : FileNode) : Decidable (fs.Accepts q x) :=
  inferInstanceAs (Decidable (_ ∧ _ ∧ _))

/-- Write one entry. -/
def put (fs : FileSystem) (q : List String) (x : FileNode) : Option FileSystem :=
  if h : fs.Accepts q x then
    some
      { locations := insert q fs.locations
        node := Function.update fs.node q x
        parent_dir := by
          obtain ⟨hq, hdir, hkind⟩ := h
          have hself : q.dropLast ≠ q := by
            intro heq
            have hlen := q.length_dropLast
            rw [heq] at hlen
            exact hq (List.length_eq_zero_iff.mp (by omega))
          intro r hr
          obtain rfl | hr := Finset.mem_insert.mp hr
          · by_cases hroot : r.dropLast = []
            · exact Or.inl hroot
            · rw [lookup, if_neg hroot] at hdir
              split_ifs at hdir with hmem
              refine Or.inr ⟨Finset.mem_insert_of_mem hmem, ?_⟩
              rw [Function.update_of_ne hself]
              exact Option.some.inj hdir
          · obtain hroot | ⟨hmem, hpar⟩ := fs.parent_dir r hr
            · exact Or.inl hroot
            · refine Or.inr ⟨Finset.mem_insert_of_mem hmem, ?_⟩
              by_cases hrq : r.dropLast = q
              · -- the parent of `r` is a directory, so it is written as one
                have hlook : fs.lookup q = some .dir := by
                  rw [lookup, if_neg hq, if_pos (hrq ▸ hmem), ← hrq, hpar]
                rw [hrq, Function.update_self]
                exact (hkind .dir hlook).mp rfl
              · rw [Function.update_of_ne hrq, hpar] }
  else none

theorem accepts_of_put (h : fs.put q x = some fs') : fs.Accepts q x := by
  rw [put] at h
  split_ifs at h with hacc
  exact hacc

theorem lookup_of_put (h : fs.put q x = some fs') (r : List String) :
    fs'.lookup r = if r = q then some x else fs.lookup r := by
  have hacc := accepts_of_put h
  rw [put, dif_pos hacc] at h
  obtain rfl := Option.some.inj h
  by_cases hrq : r = q
  · simp [lookup, hrq, hacc.1]
  · by_cases hr : r = []
    · simp [lookup, hr, hacc.1.symm]
    · simp [lookup, hr, hrq]

-- ════════════════════════════════════════════════════════════════════════
-- Renaming
-- ════════════════════════════════════════════════════════════════════════

/-- Move the entry `a` of the root to `b`, in place of what is there. -/
def renameEntry (fs : FileSystem) (a b : String) : FileSystem where
  locations :=
    (fs.locations.filter fun q => q.head? ≠ some a ∧ q.head? ≠ some b) ∪
      (fs.locations.filter fun q => q.head? = some a).image fun q => b :: q.tail
  node q := if q.head? = some b then fs.node (a :: q.tail) else fs.node q
  parent_dir q hq := by
    rcases Finset.mem_union.mp hq with hq | hq
    · obtain ⟨hmem, ha, hb⟩ := Finset.mem_filter.mp hq
      obtain hroot | ⟨hpar, hdir⟩ := fs.parent_dir q hmem
      · exact Or.inl hroot
      · by_cases hroot : q.dropLast = []
        · exact Or.inl hroot
        · have hhead : q.dropLast.head? = q.head? := by
            cases q with
            | nil => rfl
            | cons c cs => cases cs <;> simp_all
          refine Or.inr ⟨Finset.mem_union_left _ (Finset.mem_filter.mpr ⟨hpar, ?_, ?_⟩), ?_⟩
          · rwa [hhead]
          · rwa [hhead]
          · rw [hhead, if_neg hb, hdir]
    · obtain ⟨r, hr, rfl⟩ := Finset.mem_image.mp hq
      obtain ⟨hmem, ha⟩ := Finset.mem_filter.mp hr
      obtain ⟨rest, rfl⟩ : ∃ rest, r = a :: rest := by
        cases r with
        | nil => simp at ha
        | cons c cs => exact ⟨cs, by simpa using ha⟩
      cases rest with
      | nil => exact Or.inl rfl
      | cons c cs =>
        obtain hroot | ⟨hpar, hdir⟩ := fs.parent_dir _ hmem
        · simp at hroot
        · refine Or.inr ⟨Finset.mem_union_right _ (Finset.mem_image.mpr
            ⟨a :: (c :: cs).dropLast, Finset.mem_filter.mpr ⟨by simpa using hpar, by simp⟩, by simp⟩),
            ?_⟩
          simpa using hdir

theorem lookup_renameEntry (rest : List String) :
    (fs.renameEntry a b).lookup (b :: rest) = fs.lookup (a :: rest) := by
  have hmem : b :: rest ∈ (fs.renameEntry a b).locations ↔ a :: rest ∈ fs.locations := by
    simp only [renameEntry, Finset.mem_union, Finset.mem_filter, Finset.mem_image]
    constructor
    · rintro (⟨-, -, hb⟩ | ⟨r, ⟨hr, ha⟩, heq⟩)
      · simp at hb
      · cases r with
        | nil => simp at ha
        | cons c cs => simp_all
    · intro h
      exact Or.inr ⟨a :: rest, ⟨h, by simp⟩, by simp⟩
  have hnode : (fs.renameEntry a b).node (b :: rest) = fs.node (a :: rest) := by
    simp [renameEntry]
  simp only [lookup, hmem, hnode, reduceCtorEq, if_false]

-- ════════════════════════════════════════════════════════════════════════
-- Resolution without links
-- ════════════════════════════════════════════════════════════════════════

theorem walk_cons_of_dir {follow : Bool} {links : Nat} {cur cs : List String} (hn : n ≠ "..")
    (hdir : fs.lookup (cur ++ [n]) = some .dir) :
    fs.walk follow links cur (n :: cs) = fs.walk follow links (cur ++ [n]) cs := by
  cases links with
  | zero => simp only [walk, walkWith, if_neg hn, hdir]
  | succ links => simp only [walk, walkWith, if_neg hn, hdir]

/-- A name that is no link resolves to itself. -/
theorem walk_singleton {links : Nat} {cur : List String} (hn : n ≠ "..")
    (hlink : (fs.lookup (cur ++ [n])).any FileNode.isSymlink = false) :
    fs.walk true links cur [n] =
      if fs.lookup (cur ++ [n]) = none then none else some (cur ++ [n]) := by
  have hwalk : ∀ jump, fs.walkWith true jump cur [n] =
      if fs.lookup (cur ++ [n]) = none then none else some (cur ++ [n]) := by
    intro jump
    rw [walkWith, if_neg hn]
    cases hl : fs.lookup (cur ++ [n]) with
    | none => simp
    | some x =>
      cases x with
      | dir => rfl
      | file content => simp
      | symlink target => simp [hl, FileNode.isSymlink] at hlink
  cases links with
  | zero => exact hwalk _
  | succ links => exact hwalk _

-- ════════════════════════════════════════════════════════════════════════
-- Parts of a tree
-- ════════════════════════════════════════════════════════════════════════

/-- Everything in the one tree is in the other. -/
def Part (fs fs' : FileSystem) : Prop := ∀ q x, fs.lookup q = some x → fs'.lookup q = some x

theorem erase_part (hq : q ≠ []) : (fs.erase q).Part fs := by
  intro r x h
  rw [lookup_erase hq] at h
  split_ifs at h
  exact h

theorem walkWith_mono (hpart : fs.Part fs') {follow : Bool}
    {jump jump' : List String → List String → Option (List String)}
    (hjump : ∀ cur cs d, jump cur cs = some d → jump' cur cs = some d) {cur cs d : List String}
    (h : fs.walkWith follow jump cur cs = some d) : fs'.walkWith follow jump' cur cs = some d := by
  induction cs generalizing cur with
  | nil => exact h
  | cons c cs ih =>
    simp only [walkWith] at h ⊢
    by_cases hc : c = ".."
    · rw [if_pos hc] at h ⊢
      exact ih h
    · rw [if_neg hc] at h ⊢
      cases hl : fs.lookup (cur ++ [c]) with
      | none => simp [hl] at h
      | some x =>
        rw [hl] at h
        rw [hpart _ _ hl]
        cases x with
        | dir => exact ih h
        | file content => exact h
        | symlink target =>
          by_cases hlast : cs = [] ∧ follow = false
          · simpa only [if_pos hlast] using h
          · simp only [if_neg hlast] at h ⊢
            exact hjump _ _ _ h

/-- **Resolution** in a part of a tree is resolution in the whole. -/
theorem resolve_mono (hpart : fs.Part fs') {follow : Bool} {d : List String}
    (h : fs.resolve cwd follow p = some d) : fs'.resolve cwd follow p = some d := by
  have hwalk : ∀ links cur cs d, fs.walk follow links cur cs = some d →
      fs'.walk follow links cur cs = some d := by
    intro links
    induction links with
    | zero => exact fun cur cs d h => walkWith_mono hpart (fun _ _ _ hj => by simp at hj) h
    | succ links ih => exact fun cur cs d h => walkWith_mono hpart ih h
  exact hwalk _ _ _ _ h

theorem pathExists_mono (hpart : fs.Part fs') (h : fs.pathExists cwd p = true) :
    fs'.pathExists cwd p = true := by
  obtain ⟨d, hd⟩ := Option.isSome_iff_exists.mp h
  rw [pathExists, resolve_mono hpart hd]
  rfl

theorem isDir_mono (hpart : fs.Part fs') (h : fs.isDir cwd p = true) : fs'.isDir cwd p = true := by
  rw [isDir, beq_iff_eq] at h ⊢
  obtain ⟨d, hd, hdir⟩ := Option.bind_eq_some_iff.mp h
  rw [resolve_mono hpart hd]
  exact hpart _ _ hdir

theorem mem_children_iff {d : List String} :
    n ∈ fs.children d ↔ fs.lookup (d ++ [n]) ≠ none := by
  rw [lookup_ne_none_iff (by simp), children, Finset.mem_image]
  constructor
  · rintro ⟨q, hq, rfl⟩
    obtain ⟨hmem, hne, rfl⟩ := Finset.mem_filter.mp hq
    rwa [List.getLastD_eq_getLast?, List.getLast?_eq_some_getLast hne, Option.getD_some,
      List.dropLast_append_getLast hne]
  · intro h
    exact ⟨d ++ [n], Finset.mem_filter.mpr ⟨h, by simp, by simp⟩, by simp⟩

theorem anyChild_mono (hpart : fs.Part fs') {suffix : String}
    (h : fs.anyChild cwd p suffix = true) : fs'.anyChild cwd p suffix = true := by
  rw [anyChild] at h ⊢
  cases hd : fs.resolve cwd true p with
  | none => simp [hd] at h
  | some d =>
    rw [hd] at h
    rw [resolve_mono hpart hd]
    obtain ⟨n, hn, hsuffix⟩ := of_decide_eq_true h
    refine decide_eq_true ⟨n, ?_, hsuffix⟩
    obtain ⟨x, hx⟩ := Option.ne_none_iff_exists'.mp (mem_children_iff.mp hn)
    rw [mem_children_iff, hpart _ _ hx]
    simp

end FileSystem
