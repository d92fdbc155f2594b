import Mathlib.Data.List.Lex
import Mathlib.Data.List.Sort
import Mathlib.Order.Monotone.Basic

/-!
# A file split into numbered files

`pieces` cuts a list into pieces of one size, the last of which may be shorter. The files get
suffixes of digits that are counted up. A suffix has a fixed number of digits, but the first digit
never stays at the last one of the base: the counter goes on with the last digit kept in front and
one more digit, all zero, so that there is no last suffix and the suffixes stay in lexicographic
order. So sorting a directory by name gives the files in the order in which they were written.

## Main results

- `flatten_pieces`, `length_pieces_mul`: the pieces make up the file, and how many they are
- `Suffix.lt_next`, `strictMono_suffix`: the order of the suffixes
- `mergeSort_eq_of_perm`: a directory in any order, sorted by name
-/

namespace SplitFiles

-- ════════════════════════════════════════════════════════════════════════
-- Pieces
-- ════════════════════════════════════════════════════════════════════════

section Pieces

variable {α : Type*} {size : Nat} {content piece : List α}

def pieces (size : Nat) (content : List α) : List (List α) :=
  if _h : size = 0 ∨ content = [] then []
  else content.take size :: pieces size (content.drop size)
termination_by content.length
decreasing_by
  have := List.length_pos_iff.mpr fun hnil => _h (.inr hnil)
  rw [List.length_drop]
  omega

/-- **The file** is its pieces in their order. -/
theorem flatten_pieces (hsize : 0 < size) : (pieces size content).flatten = content := by
  fun_induction pieces size content with
  | case1 content h => exact (h.resolve_left hsize.ne').symm
  | case2 content h ih => rw [List.flatten_cons, ih, List.take_append_drop]

/-- All pieces but the last one are full. -/
theorem length_pieces_mul (hsize : 0 < size) :
    (pieces size content).length * size < content.length + size := by
  fun_induction pieces size content with
  | case1 content => simpa using Nat.add_pos_right _ hsize
  | case2 content h ih =>
    rw [List.length_drop] at ih
    rw [List.length_cons, Nat.succ_mul]
    rcases Nat.lt_or_ge content.length size with hlt | hge
    · have hzero : (pieces size (content.drop size)).length * size < size := by omega
      have hpos := List.length_pos_iff.mpr fun hnil => h (.inr hnil)
      have hnone : (pieces size (content.drop size)).length = 0 := by
        by_contra hne
        exact absurd (Nat.le_mul_of_pos_left size (Nat.pos_of_ne_zero hne)) (by omega)
      rw [hnone]
      omega
    · omega

end Pieces

-- ════════════════════════════════════════════════════════════════════════
-- Suffixes
-- ════════════════════════════════════════════════════════════════════════

/-- One more, the last digit first; nothing when every digit is at its end. -/
def bump (base : Nat) : List Nat → Option (List Nat)
  | [] => none
  | d :: ds =>
    match bump base ds with
    | some ds' => some (d :: ds')
    | none => if d + 1 < base then some ((d + 1) :: List.replicate ds.length 0) else none

theorem lt_of_bump {base : Nat} {ds ds' : List Nat} (h : bump base ds = some ds') : ds < ds' := by
  induction ds generalizing ds' with
  | nil => exact absurd h.symm (Option.some_ne_none _)
  | cons d ds ih =>
    rw [bump] at h
    cases hrest : bump base ds with
    | some rest =>
      rw [hrest] at h
      obtain rfl := Option.some.inj h
      exact List.cons_lt_cons_iff.mpr (.inr ⟨rfl, ih hrest⟩)
    | none =>
      rw [hrest] at h
      obtain ⟨-, h⟩ := Option.ite_none_right_eq_some.mp h
      obtain rfl := Option.some.inj h
      exact List.cons_lt_cons_iff.mpr (.inl (Nat.lt_succ_self d))

/-- The digits that are kept in front, the first digit of the counter and the other ones. -/
structure Suffix where
  front : List Nat := []
  first : Nat := 0
  rest : List Nat
  deriving DecidableEq, Repr

namespace Suffix

def digits (s : Suffix) : List Nat := s.front ++ s.first :: s.rest

/-- The next one; the first digit stops before the last one of the base. -/
def next (base : Nat) (s : Suffix) : Suffix :=
  match bump base s.rest with
  | some rest => { s with rest }
  | none =>
    if s.first + 2 < base then
      { s with first := s.first + 1, rest := List.replicate s.rest.length 0 }
    else ⟨s.front ++ [s.first + 1], 0, List.replicate (s.rest.length + 1) 0⟩

/-- **The next suffix** is behind, also when it is longer. -/
theorem lt_next (base : Nat) (s : Suffix) : s.digits < (s.next base).digits := by
  unfold next
  cases hbump : bump base s.rest with
  | some rest =>
    exact List.append_left_lt (List.cons_lt_cons_iff.mpr (.inr ⟨rfl, lt_of_bump hbump⟩))
  | none =>
    dsimp only
    split_ifs
    · exact List.append_left_lt (List.cons_lt_cons_iff.mpr (.inl (Nat.lt_succ_self _)))
    · rw [digits, digits, List.append_assoc]
      exact List.append_left_lt (List.cons_lt_cons_iff.mpr (.inl (Nat.lt_succ_self _)))

end Suffix

/-- The suffix of file `k`, of two digits at the beginning. -/
def suffix (base k : Nat) : List Nat := ((Suffix.next base)^[k] { rest := [0] }).digits

theorem strictMono_suffix (base : Nat) : StrictMono (suffix base) := by
  refine strictMono_nat_of_lt_succ fun k => ?_
  rw [suffix, suffix, Function.iterate_succ_apply']
  exact Suffix.lt_next base _

-- ════════════════════════════════════════════════════════════════════════
-- The directory
-- ════════════════════════════════════════════════════════════════════════

/-- The names of the files, and what is in them. -/
def files {α : Type*} (name : Nat → List Nat) (contents : List α) : List (List Nat × α) :=
  contents.zipIdx.map fun entry => (name entry.2, entry.1)

section Files

variable {α : Type*} {name : Nat → List Nat} {contents : List α} {entries : List (List Nat × α)}

theorem map_snd_files : (files name contents).map Prod.snd = contents := by
  rw [files, List.map_map]
  exact List.zipIdx_map_fst 0 contents

theorem pairwise_files (hname : StrictMono name) :
    (files name contents).Pairwise fun e e' => e.1 < e'.1 := by
  rw [files, List.pairwise_map]
  refine List.Pairwise.imp (R := fun (e e' : α × Nat) => e.2 < e'.2) (fun h => hname h) ?_
  have hindices : ((contents.zipIdx).map Prod.snd).Pairwise (· < ·) := by
    rw [List.zipIdx_map_snd]
    exact List.pairwise_lt_range'
  exact List.pairwise_map.mp hindices

/-- **Any order**: sorted by name, the files are in the order in which they were written. -/
theorem mergeSort_eq_of_perm (hname : StrictMono name)
    (hperm : entries.Perm (files name contents)) :
    entries.mergeSort (fun e e' => e.1 ≤ e'.1) = files name contents := by
  have hsorted : (files name contents).Pairwise fun e e' => e.1 < e'.1 := pairwise_files hname
  have hnodup : ((files name contents).map Prod.fst).Nodup :=
    List.pairwise_map.mpr (hsorted.imp fun h => h.ne)
  have hsort := (entries.mergeSort_perm fun e e' => e.1 ≤ e'.1).trans hperm
  have hle : (files name contents).Pairwise fun e e' => e.1 ≤ e'.1 := hsorted.imp fun h => h.le
  refine hsort.eq_of_pairwise ?_ ?_ hle
  · intro e e' he he' hle hge
    exact List.inj_on_of_nodup_map hnodup (hsort.mem_iff.mp he) he' (le_antisymm hle hge)
  · refine (List.pairwise_mergeSort ?_ ?_ entries).imp fun h => of_decide_eq_true h
    · intro e e' e'' h h'
      exact decide_eq_true ((of_decide_eq_true h).trans (of_decide_eq_true h'))
    · intro e e'
      rw [Bool.or_eq_true, decide_eq_true_iff, decide_eq_true_iff]
      exact le_total _ _

end Files

end SplitFiles
