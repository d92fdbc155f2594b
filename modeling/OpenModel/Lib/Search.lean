import Mathlib.Data.List.Infix

/-!
# The first occurrence of a word

An occurrence of a word that begins in `a`, where `a` stands in front of the word, ends before the
word does: it lies in `a` and all but the last letter of the word.

## Main results

- `index_eq_none_iff`: there is no index exactly if the word does not occur
- `index_eq_some_iff`: the index is that of an occurrence before which none begins
-/

namespace Search

variable {α : Type*} {word s a b : List α} {n : Nat}

/-- Where a word stands, it stands without its last letter. -/
theorem append_dropLast (word a b : List α) : a ++ word.dropLast <+: a ++ (word ++ b) := by
  rw [List.prefix_append_right_inj]
  exact word.dropLast_prefix.trans (List.prefix_append word b)

/-- What begins in `a` lies in `a` and the word without its last letter. -/
theorem prefix_dropLast (hword : word ≠ []) (ha : a ≠ []) (h : word <+: a ++ (word ++ b)) :
    word <+: a ++ word.dropLast := by
  refine List.prefix_of_prefix_length_le h (append_dropLast word a b) ?_
  have hpos := List.length_pos_iff.mpr ha
  have hpos' := List.length_pos_iff.mpr hword
  simp only [List.length_append, List.length_dropLast]
  omega

theorem not_infix_dropLast (hword : word ≠ []) : ¬ word <:+: word.dropLast := by
  intro h
  have hle := h.length_le
  have hpos := List.length_pos_iff.mpr hword
  rw [List.length_dropLast] at hle
  omega

variable [DecidableEq α]

/-- Where `word` begins first. -/
def index (word : List α) : List α → Option Nat
  | [] => if word = [] then some 0 else none
  | c :: s => if word <+: c :: s then some 0 else (index word s).map (· + 1)

theorem index_eq_none_iff : index word s = none ↔ ¬ word <:+: s := by
  induction s with
  | nil => simp [index]
  | cons c s ih =>
    rw [index, List.infix_cons_iff]
    split_ifs with hstart
    · simp [hstart]
    · simp [ih, hstart]

/-- **The first occurrence** of a word. -/
theorem index_eq_some_iff (hword : word ≠ []) :
    index word s = some n ↔
      ∃ a b, s = a ++ (word ++ b) ∧ a.length = n ∧ ¬ word <:+: a ++ word.dropLast := by
  induction s generalizing n with
  | nil => simp [index, hword]
  | cons c s ih =>
    rw [index]
    split_ifs with hstart
    · rw [Option.some.injEq]
      constructor
      · rintro rfl
        obtain ⟨b, hb⟩ := hstart
        exact ⟨[], b, hb.symm, rfl, not_infix_dropLast hword⟩
      · rintro ⟨a, b, hs, rfl, hfirst⟩
        by_contra ha
        have hne : a ≠ [] := fun hnil => ha (by rw [hnil]; rfl)
        exact hfirst (prefix_dropLast hword hne (hs ▸ hstart)).isInfix
    · rw [Option.map_eq_some_iff]
      constructor
      · rintro ⟨k, hk, rfl⟩
        obtain ⟨a, b, rfl, rfl, hfirst⟩ := ih.mp hk
        refine ⟨c :: a, b, rfl, rfl, fun h => ?_⟩
        rw [List.cons_append, List.infix_cons_iff] at h
        exact h.elim (fun h => hstart (h.trans (append_dropLast word (c :: a) b))) hfirst
      · rintro ⟨a, b, hs, rfl, hfirst⟩
        cases a with
        | nil => exact absurd ⟨b, hs.symm⟩ hstart
        | cons d a =>
          obtain ⟨rfl, rfl⟩ := List.cons.inj hs
          refine ⟨a.length, ih.mpr ⟨a, b, rfl, rfl, fun h => hfirst ?_⟩, rfl⟩
          exact List.infix_cons_iff.mpr (.inr h)

theorem index_append (hword : word ≠ []) (hfirst : ¬ word <:+: a ++ word.dropLast) :
    index word (a ++ (word ++ b)) = some a.length :=
  (index_eq_some_iff hword).mpr ⟨a, b, rfl, rfl, hfirst⟩

/-- Where a word of one letter begins first. -/
theorem index_singleton {c : α} (ha : c ∉ a) : index [c] (a ++ c :: b) = some a.length :=
  index_append (by simp) fun h => ha (by simpa using h.subset (List.mem_singleton_self c))

theorem index_singleton_eq_none {c : α} (hs : c ∉ s) : index [c] s = none :=
  index_eq_none_iff.mpr fun h => hs (h.subset (List.mem_singleton_self c))

end Search
