import Mathlib.Data.List.Infix

/-!
# Lists cut into lines

A list over any type, cut after each occurrence of a separator. `completeLines` are the pieces
that end with the separator, `unfinished` is what follows the last of them. Both are computed by
`linesFrom` and `unfinishedFrom`, which carry the beginning of the current line along.

## Main results

- `completeLines_append`, `completeLines_append_of_whole`: lines of two parts
- `splitFirst_eq_some`: taking off the first line
- `exists_line_of_drop`: a line of a suffix is a suffix of a line
-/

namespace Lines

variable {α : Type*} [DecidableEq α] (sep : α)

/-- The lines of a list that continues the line `line`. -/
def linesFrom (line : List α) : List α → List (List α)
  | [] => []
  | x :: xs => if x = sep then (line ++ [x]) :: linesFrom [] xs else linesFrom (line ++ [x]) xs

/-- The unfinished line after a list that continues the line `line`. -/
def unfinishedFrom (line : List α) : List α → List α
  | [] => line
  | x :: xs => if x = sep then unfinishedFrom [] xs else unfinishedFrom (line ++ [x]) xs

/-- The lines that end with the separator. -/
def completeLines (xs : List α) : List (List α) := linesFrom sep [] xs

/-- What follows the last separator. -/
def unfinished (xs : List α) : List α := unfinishedFrom sep [] xs

/-- Nothing follows the last separator. -/
def Whole (xs : List α) : Prop := unfinished sep xs = []

instance (xs : List α) : Decidable (Whole sep xs) := inferInstanceAs (Decidable (_ = _))

/-- The first line, with its separator, and the rest. -/
def splitFirst : List α → Option (List α × List α)
  | [] => none
  | x :: xs =>
    if x = sep then some ([x], xs)
    else (splitFirst xs).map fun (line, rest) => (x :: line, rest)

variable {sep} {line xs ys : List α}

@[simp] theorem completeLines_nil : completeLines sep [] = [] := rfl

@[simp] theorem whole_nil : Whole sep [] := rfl

-- ════════════════════════════════════════════════════════════════════════
-- Two parts
-- ════════════════════════════════════════════════════════════════════════

theorem linesFrom_append (line xs ys : List α) :
    linesFrom sep line (xs ++ ys) =
      linesFrom sep line xs ++ linesFrom sep (unfinishedFrom sep line xs) ys := by
  induction xs generalizing line with
  | nil => rfl
  | cons x xs ih =>
    by_cases hx : x = sep
    · simp [linesFrom, unfinishedFrom, hx, ih]
    · simp [linesFrom, unfinishedFrom, hx, ih]

theorem unfinishedFrom_append (line xs ys : List α) :
    unfinishedFrom sep line (xs ++ ys) =
      unfinishedFrom sep (unfinishedFrom sep line xs) ys := by
  induction xs generalizing line with
  | nil => rfl
  | cons x xs ih =>
    by_cases hx : x = sep
    · simp [unfinishedFrom, hx, ih]
    · simp [unfinishedFrom, hx, ih]

/-- The second part continues the unfinished line of the first one. -/
theorem completeLines_append (xs ys : List α) :
    completeLines sep (xs ++ ys) =
      completeLines sep xs ++ linesFrom sep (unfinished sep xs) ys :=
  linesFrom_append [] xs ys

/-- After whole lines the second part stands alone. -/
theorem completeLines_append_of_whole (h : Whole sep xs) (ys : List α) :
    completeLines sep (xs ++ ys) = completeLines sep xs ++ completeLines sep ys := by
  rw [completeLines_append, show unfinished sep xs = [] from h]
  rfl

theorem Whole.append (hx : Whole sep xs) (hy : Whole sep ys) : Whole sep (xs ++ ys) := by
  unfold Whole unfinished
  rw [unfinishedFrom_append, show unfinishedFrom sep [] xs = [] from hx]
  exact hy

/-- Whether a list ends with the separator does not depend on the line that it continues. -/
theorem unfinishedFrom_eq_nil_of {line' : List α} (hne : xs ≠ [])
    (h : unfinishedFrom sep line xs = []) : unfinishedFrom sep line' xs = [] := by
  induction xs generalizing line line' with
  | nil => exact absurd rfl hne
  | cons x xs ih =>
    by_cases hx : x = sep
    · simpa [unfinishedFrom, hx] using h
    · simp only [unfinishedFrom, hx, if_false] at h ⊢
      by_cases hxs : xs = []
      · subst hxs
        simp [unfinishedFrom] at h
      · exact ih hxs h

/-- Whole lines after anything. -/
theorem Whole.append_left (hy : Whole sep ys) (hne : ys ≠ []) (xs : List α) :
    Whole sep (xs ++ ys) := by
  unfold Whole unfinished
  rw [unfinishedFrom_append]
  exact unfinishedFrom_eq_nil_of hne hy

/-- The end of whole lines. -/
theorem Whole.of_append_left (hne : ys ≠ []) (h : Whole sep (xs ++ ys)) : Whole sep ys := by
  unfold Whole unfinished at h
  rw [unfinishedFrom_append] at h
  exact unfinishedFrom_eq_nil_of hne h

/-- What follows whole lines. -/
theorem Whole.of_append (hx : Whole sep xs) (h : Whole sep (xs ++ ys)) : Whole sep ys := by
  unfold Whole unfinished at h
  rw [unfinishedFrom_append, show unfinishedFrom sep [] xs = [] from hx] at h
  exact h

-- ════════════════════════════════════════════════════════════════════════
-- One line
-- ════════════════════════════════════════════════════════════════════════

theorem unfinishedFrom_of_not_mem (h : sep ∉ xs) : unfinishedFrom sep line xs = line ++ xs := by
  induction xs generalizing line with
  | nil => simp [unfinishedFrom]
  | cons x xs ih =>
    have hx : x ≠ sep := fun heq => h (heq ▸ List.mem_cons_self)
    rw [unfinishedFrom, if_neg hx, ih fun hmem => h (List.mem_cons_of_mem x hmem)]
    simp

theorem linesFrom_of_not_mem (h : sep ∉ xs) : linesFrom sep line xs = [] := by
  induction xs generalizing line with
  | nil => rfl
  | cons x xs ih =>
    have hx : x ≠ sep := fun heq => h (heq ▸ List.mem_cons_self)
    rw [linesFrom, if_neg hx, ih fun hmem => h (List.mem_cons_of_mem x hmem)]

/-- Without a separator there is no complete line. -/
theorem completeLines_of_not_mem (h : sep ∉ xs) : completeLines sep xs = [] :=
  linesFrom_of_not_mem h

/-- One line and the rest. -/
theorem completeLines_line_append {body : List α} (h : sep ∉ body) (ys : List α) :
    completeLines sep (body ++ [sep] ++ ys) = (body ++ [sep]) :: completeLines sep ys := by
  rw [List.append_assoc, completeLines_append, completeLines_of_not_mem h, unfinished,
    unfinishedFrom_of_not_mem h]
  simp [linesFrom, completeLines]

theorem whole_line {body : List α} (h : sep ∉ body) : Whole sep (body ++ [sep]) := by
  unfold Whole unfinished
  rw [unfinishedFrom_append, unfinishedFrom_of_not_mem h]
  simp [unfinishedFrom]

/-- The lines of a list that is put together from lines. -/
theorem completeLines_flatten {lines : List (List α)}
    (h : ∀ line ∈ lines, ∃ body, sep ∉ body ∧ line = body ++ [sep]) (ys : List α) :
    completeLines sep (lines.flatten ++ ys) = lines ++ completeLines sep ys := by
  induction lines with
  | nil => rfl
  | cons line lines ih =>
    obtain ⟨body, hbody, rfl⟩ := h line List.mem_cons_self
    rw [List.flatten_cons, List.append_assoc (body ++ [sep]), completeLines_line_append hbody,
      ih fun line hline => h line (List.mem_cons_of_mem _ hline)]
    rfl

/-- **First line**: it ends with its only separator. -/
theorem splitFirst_eq_some {rest : List α} (h : splitFirst sep xs = some (line, rest)) :
    xs = line ++ rest ∧ ∃ body, sep ∉ body ∧ line = body ++ [sep] := by
  induction xs generalizing line with
  | nil => cases h
  | cons x xs ih =>
    by_cases hx : x = sep
    · rw [splitFirst, if_pos hx] at h
      cases h
      exact ⟨rfl, [], by simp, by simp [hx]⟩
    · rw [splitFirst, if_neg hx] at h
      obtain ⟨⟨line', rest'⟩, hrec, heq⟩ := Option.map_eq_some_iff.mp h
      cases heq
      obtain ⟨rfl, body, hbody, rfl⟩ := ih hrec
      refine ⟨rfl, x :: body, ?_, rfl⟩
      rw [List.mem_cons, not_or]
      exact ⟨fun heq => hx heq.symm, hbody⟩

theorem splitFirst_eq_none : splitFirst sep xs = none ↔ sep ∉ xs := by
  induction xs with
  | nil => simp [splitFirst]
  | cons x xs ih =>
    by_cases hx : x = sep
    · simp [splitFirst, hx]
    · have hsep : sep ≠ x := fun heq => hx heq.symm
      simp [splitFirst, hx, hsep, ih]

/-- Taking off the first line takes one line off the list of lines. -/
theorem completeLines_of_splitFirst {rest : List α} (h : splitFirst sep xs = some (line, rest))
    (ys : List α) :
    completeLines sep (xs ++ ys) = line :: completeLines sep (rest ++ ys) := by
  obtain ⟨rfl, body, hbody, rfl⟩ := splitFirst_eq_some h
  rw [List.append_assoc, completeLines_line_append hbody]

/-- What is left of whole lines is whole. -/
theorem whole_of_splitFirst {rest : List α} (h : splitFirst sep xs = some (line, rest))
    (hw : Whole sep (xs ++ ys)) : Whole sep (rest ++ ys) := by
  obtain ⟨rfl, body, hbody, rfl⟩ := splitFirst_eq_some h
  rw [List.append_assoc] at hw
  exact (whole_line hbody).of_append hw

-- ════════════════════════════════════════════════════════════════════════
-- Suffixes
-- ════════════════════════════════════════════════════════════════════════

/-- A list that continues a longer line has longer lines. -/
theorem exists_line_of_linesFrom {piece : List α} (hpiece : piece ∈ linesFrom sep line xs)
    (front : List α) : ∃ whole ∈ linesFrom sep (front ++ line) xs, piece <:+ whole := by
  induction xs generalizing line front with
  | nil => cases hpiece
  | cons x xs ih =>
    by_cases hx : x = sep
    · rw [linesFrom, if_pos hx] at hpiece ⊢
      rcases List.mem_cons.mp hpiece with rfl | hlater
      · refine ⟨_, List.mem_cons_self, ?_⟩
        rw [List.append_assoc]
        exact List.suffix_append _ _
      · exact ⟨piece, List.mem_cons_of_mem _ hlater, List.suffix_refl _⟩
    · rw [linesFrom, if_neg hx] at hpiece ⊢
      rw [List.append_assoc]
      exact ih hpiece front

/-- **Suffix**: every line of what is left after dropping something is the end of a line. -/
theorem exists_line_of_drop {piece : List α} {n : Nat}
    (hpiece : piece ∈ completeLines sep (xs.drop n)) :
    ∃ whole ∈ completeLines sep xs, piece <:+ whole := by
  obtain ⟨whole, hmem, hsuffix⟩ :=
    exists_line_of_linesFrom hpiece (unfinished sep (xs.take n))
  rw [List.append_nil] at hmem
  refine ⟨whole, ?_, hsuffix⟩
  rw [← List.take_append_drop n xs, completeLines_append]
  exact List.mem_append_right _ hmem

end Lines
