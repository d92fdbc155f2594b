import Mathlib.Data.List.DropRight

/-!
# White space

The characters that Unicode counts as white space, and a text in UTF-8 without those at its
ends. The encoding of a blank can be taken off a text as it stands, since no encoding of a
character is part of the encoding of another one.

## Main results

- `trim_eq_iff`: what is trimmed to a text is that text with blanks around it
- `trimSpace_of_ascii`: in a text of ASCII characters the blanks are single bytes
-/

namespace Space

/-- The characters of the property White_Space. -/
def blanks : List Char :=
  ['\t', '\n', '\x0b', '\x0c', '\x0d', ' ', '\u0085', '\u00a0', '\u1680', '\u2000', '\u2001',
    '\u2002', '\u2003', '\u2004', '\u2005', '\u2006', '\u2007', '\u2008', '\u2009', '\u200a',
    '\u2028', '\u2029', '\u202f', '\u205f', '\u3000']

def isSpace (c : Char) : Bool := c ∈ blanks

section Trim

variable {α : Type*} (p : α → Bool)

/-- A list without the elements at its ends that satisfy `p`. -/
def trim (s : List α) : List α := (s.dropWhile p).rdropWhile p

variable {p} {s t l r : List α}

theorem trim_append (hl : ∀ x ∈ l, p x) (hr : ∀ x ∈ r, p x) : trim p (l ++ t ++ r) = trim p t := by
  have hleft : (l ++ t ++ r).dropWhile p = (t ++ r).dropWhile p := by
    rw [List.append_assoc, List.dropWhile_append_of_pos hl]
  rw [trim, trim, hleft, List.dropWhile_append]
  split_ifs with hempty
  · have hnil : t.dropWhile p = [] := List.isEmpty_iff.mp hempty
    rw [List.dropWhile_eq_nil_iff.mpr hr, hnil]
  · rw [List.rdropWhile, List.reverse_append, List.dropWhile_append_of_pos (by simpa using hr)]
    rfl

theorem exists_append_trim (s : List α) :
    ∃ l r, (∀ x ∈ l, p x) ∧ (∀ x ∈ r, p x) ∧ s = l ++ trim p s ++ r := by
  refine ⟨s.takeWhile p, (s.dropWhile p).rtakeWhile p, fun x hx => List.mem_takeWhile_imp hx,
    fun x hx => List.mem_rtakeWhile_imp hx, ?_⟩
  rw [trim, List.append_assoc, List.rdropWhile_append_rtakeWhile, List.takeWhile_append_dropWhile]

/-- A text in blanks is trimmed to itself, and nothing else is. -/
theorem trim_eq_iff (ht : trim p t = t) :
    trim p s = t ↔ ∃ l r, (∀ x ∈ l, p x) ∧ (∀ x ∈ r, p x) ∧ s = l ++ t ++ r := by
  constructor
  · rintro rfl
    exact exists_append_trim s
  · rintro ⟨l, r, hl, hr, rfl⟩
    rw [trim_append hl hr, ht]

theorem trim_trim (s : List α) : trim p (trim p s) = trim p s := by
  obtain ⟨l, r, hl, hr, hs⟩ := exists_append_trim (p := p) s
  conv_rhs => rw [hs, trim_append hl hr]

theorem mem_of_mem_trim {x : α} (h : x ∈ trim p s) : x ∈ s :=
  List.dropWhile_subset p ((List.rdropWhile_prefix p _).subset h)

/-- A word that begins with a letter at which there is only the word of one letter. -/
theorem eq_singleton_of_head {words : List (List α)} {x : α} {w : List α} (hne : [] ∉ words)
    (hx : ∀ w ∈ words, w.head? = some x → w = [x]) (hw : w ∈ words) (hpre : w <+: x :: s) :
    w = [x] := by
  cases w with
  | nil => exact absurd hw hne
  | cons y w =>
    obtain rfl := (List.cons_prefix_cons.mp hpre).1
    exact hx _ hw rfl

variable [DecidableEq α]

/-- The text behind the words at its start, at most `fuel` of them. -/
def trimStart (words : List (List α)) : Nat → List α → List α
  | 0, s => s
  | fuel + 1, s =>
    match words.find? fun w => w <+: s with
    | some w => trimStart words fuel (s.drop w.length)
    | none => s

theorem trimStart_cons_of_mem {words : List (List α)} {x : α} (hne : [] ∉ words)
    (hx : ∀ w ∈ words, w.head? = some x → w = [x]) (hmem : [x] ∈ words) (fuel : Nat) :
    trimStart words (fuel + 1) (x :: s) = trimStart words fuel s := by
  rw [trimStart]
  split
  · next w hw =>
    have hpre : w <+: x :: s :=
      of_decide_eq_true (List.find?_some (p := fun w => decide (w <+: x :: s)) hw)
    rw [eq_singleton_of_head hne hx (List.mem_of_find?_eq_some hw) hpre]
    rfl
  · next hnone =>
    exact absurd (decide_eq_true ⟨s, rfl⟩) (List.find?_eq_none.mp hnone _ hmem)

theorem trimStart_cons_of_not_mem {words : List (List α)} {x : α} (hne : [] ∉ words)
    (hx : ∀ w ∈ words, w.head? = some x → w = [x]) (hmem : [x] ∉ words) (fuel : Nat) :
    trimStart words fuel (x :: s) = x :: s := by
  cases fuel with
  | zero => rfl
  | succ fuel =>
    have hnone : words.find? (fun w => w <+: x :: s) = none := by
      refine List.find?_eq_none.mpr fun w hw hpre => hmem ?_
      rwa [← eq_singleton_of_head hne hx hw (of_decide_eq_true hpre)]
    rw [trimStart, hnone]

theorem trimStart_nil {words : List (List α)} (hne : [] ∉ words) (fuel : Nat) :
    trimStart words fuel ([] : List α) = [] := by
  cases fuel with
  | zero => rfl
  | succ fuel =>
    have hnone : words.find? (fun w => w <+: ([] : List α)) = none := by
      refine List.find?_eq_none.mpr fun w hw hpre => hne ?_
      rwa [← List.prefix_nil.mp (of_decide_eq_true hpre)]
    rw [trimStart, hnone]

/-- Where each word that can be met has one letter, letters are taken off. -/
theorem trimStart_eq_dropWhile {words : List (List α)} {fuel : Nat} (hne : [] ∉ words)
    (hs : ∀ x ∈ s, ∀ w ∈ words, w.head? = some x → w = [x]) (hfuel : s.length ≤ fuel) :
    trimStart words fuel s = s.dropWhile fun x => [x] ∈ words := by
  induction s generalizing fuel with
  | nil => exact trimStart_nil hne fuel
  | cons x s ih =>
    obtain ⟨hx, hs⟩ := List.forall_mem_cons.mp hs
    obtain ⟨fuel, rfl⟩ : ∃ k, fuel = k + 1 :=
      Nat.exists_eq_succ_of_ne_zero (by rw [List.length_cons] at hfuel; omega)
    by_cases hmem : [x] ∈ words
    · have hdrop : (x :: s).dropWhile (fun y => [y] ∈ words) = s.dropWhile fun y => [y] ∈ words :=
        List.dropWhile_cons_of_pos (decide_eq_true hmem)
      rw [hdrop, trimStart_cons_of_mem hne hx hmem]
      exact ih hs (Nat.le_of_succ_le_succ hfuel)
    · have hdrop : (x :: s).dropWhile (fun y => [y] ∈ words) = x :: s :=
        List.dropWhile_cons_of_neg (by simpa using hmem)
      rw [hdrop]
      exact trimStart_cons_of_not_mem hne hx hmem _

end Trim

/-- The encodings of the blanks. -/
def encodedBlanks : List (List UInt8) := blanks.map String.utf8EncodeChar

/-- A text in UTF-8 without the white space at its ends. -/
def trimSpace (s : List UInt8) : List UInt8 :=
  let t := trimStart encodedBlanks s.length s
  (trimStart (encodedBlanks.map List.reverse) t.length t.reverse).reverse

/-- A blank that is one byte. -/
def isBlankByte (b : UInt8) : Bool := [b] ∈ encodedBlanks

theorem encodedBlanks_single : ∀ w ∈ encodedBlanks, w ≠ [] ∧
    ((∃ b ∈ w, b < 128) → w.length = 1) := by
  decide

/-- A blank that an ASCII character is a part of is this character. -/
theorem eq_of_mem_encodedBlanks {b : UInt8} {w : List UInt8} (hb : b < 128) (hw : w ∈ encodedBlanks)
    (hmem : b ∈ w) : w = [b] := by
  obtain ⟨c, rfl⟩ := List.length_eq_one_iff.mp ((encodedBlanks_single w hw).2 ⟨b, hmem, hb⟩)
  rw [List.mem_singleton.mp hmem]

/-- **ASCII**: single bytes are taken off. -/
theorem trimSpace_of_ascii {s : List UInt8} (hs : ∀ b ∈ s, b < 128) :
    trimSpace s = trim isBlankByte s := by
  have hleft : trimStart encodedBlanks s.length s = s.dropWhile isBlankByte := by
    refine trimStart_eq_dropWhile (fun hnil => (encodedBlanks_single _ hnil).1 rfl) ?_ le_rfl
    intro b hb w hw hhead
    exact eq_of_mem_encodedBlanks (hs b hb) hw (List.mem_of_mem_head? hhead)
  have hreverse (b : UInt8) : [b] ∈ encodedBlanks.map List.reverse ↔ [b] ∈ encodedBlanks := by
    simp [List.reverse_eq_iff]
  set t := s.dropWhile isBlankByte
  have hright : trimStart (encodedBlanks.map List.reverse) t.length t.reverse =
      t.reverse.dropWhile isBlankByte := by
    have hsuffix : t <:+ s := List.dropWhile_suffix _
    rw [trimStart_eq_dropWhile ?_ ?_ (List.length_reverse).le]
    · simp only [hreverse]
      rfl
    · rintro hnil
      obtain ⟨w, hw, hwnil⟩ := List.mem_map.mp hnil
      exact (encodedBlanks_single w hw).1 (List.reverse_eq_nil_iff.mp hwnil)
    · intro b hb w hw hhead
      obtain ⟨v, hv, rfl⟩ := List.mem_map.mp hw
      have hbs : b ∈ s := hsuffix.subset (List.mem_reverse.mp hb)
      rw [eq_of_mem_encodedBlanks (hs b hbs) hv (List.mem_reverse.mp (List.mem_of_mem_head? hhead))]
      rfl
  show (trimStart _ (trimStart encodedBlanks s.length s).length _).reverse = _
  rw [hleft, hright]
  rfl

end Space
