import Mathlib.Algebra.Group.Int.Defs
import OpenModel.Lib.Space

/-!
# Scanning an integer

A decimal integer at the start of a text, as `fmt.Sscanf` reads it with the verb `%d`: blanks
are skipped, though no line break, a sign is accepted, and the digits end at the first character
that is no digit. What follows is not looked at. A value that does not fit into the given number
of bits is an error.

## Main results

- `scanInt_eq_some`: what is scanned is a numeral at the start of the text
-/

namespace ScanInt

open Space (isSpace)

/-- Behind the blanks; a line break is not skipped, also not behind a carriage return. -/
def skipSpace : List Char → Option (List Char)
  | [] => some []
  | c :: s =>
    if c = '\n' ∨ (c = '\x0d' ∧ s.head? = some '\n') then none
    else if isSpace c then skipSpace s
    else some (c :: s)

/-- The sign, as a text of at most one character, and what follows it. -/
def acceptSign : List Char → List Char × List Char
  | '+' :: s => (['+'], s)
  | '-' :: s => (['-'], s)
  | s => ([], s)

/-- The value of a sign and digits. -/
def value (sign digits : List Char) : Int :=
  if sign = ['-'] then -(Nat.ofDigitChars 10 digits 0 : Int) else Nat.ofDigitChars 10 digits 0

/-- The value fits into so many bits, and one more for the sign. -/
def Fits (bits : Nat) (n : Int) : Prop := -2 ^ bits ≤ n ∧ n < 2 ^ bits

instance (bits : Nat) (n : Int) : Decidable (Fits bits n) :=
  inferInstanceAs (Decidable (_ ∧ _))

def scanInt (bits : Nat) (s : List Char) : Option Int :=
  (skipSpace s).bind fun s =>
    let (sign, s) := acceptSign s
    let digits := s.takeWhile Char.isDigit
    if digits ≠ [] ∧ Fits bits (value sign digits) then some (value sign digits) else none

/-- A text that begins with an integer, and its parts. -/
structure Numeral where
  blanks : List Char
  sign : List Char
  digits : List Char
  rest : List Char
  isSpace_blanks : ∀ c ∈ blanks, isSpace c ∧ c ≠ '\n'
  sign_mem : sign ∈ [[], ['+'], ['-']]
  digits_ne : digits ≠ []
  isDigit_digits : ∀ c ∈ digits, c.isDigit
  rest_head : ∀ c ∈ rest.head?, c.isDigit = false

namespace Numeral

def text (n : Numeral) : List Char := n.blanks ++ n.sign ++ n.digits ++ n.rest

def value (n : Numeral) : Int := ScanInt.value n.sign n.digits

/-- Digits, and nothing else. -/
def Plain (n : Numeral) : Prop := n.blanks = [] ∧ n.sign = [] ∧ n.rest = []

end Numeral

variable {bits : Nat} {s t : List Char} {n : Int}

theorem isSpace_of_isDigit {c : Char} (h : c.isDigit) : isSpace c = false := by
  have hblanks : Space.blanks.all (fun c => !c.isDigit) = true := by decide
  refine decide_eq_false fun hmem => ?_
  have hdigit := List.all_eq_true.mp hblanks c hmem
  rw [h] at hdigit
  cases hdigit

/-- A sign is neither a digit nor a blank. -/
theorem sign_spec :
    ∀ sign ∈ [[], ['+'], ['-']], ∀ c ∈ sign, c.isDigit = false ∧ isSpace c = false := by
  have hsigns : [[], ['+'], ['-']].all (fun sign => sign.all fun c => !c.isDigit && !isSpace c) =
      true := by decide
  intro sign hsign c hc
  simpa using List.all_eq_true.mp (List.all_eq_true.mp hsigns sign hsign) c hc

/-- What does not begin with a blank is left as it is. -/
theorem skipSpace_of_head (h : ∀ c ∈ s.head?, isSpace c = false) : skipSpace s = some s := by
  cases s with
  | nil => rfl
  | cons c s =>
    have hc : isSpace c = false := h c rfl
    rw [skipSpace, if_neg, if_neg (by simp [hc])]
    rintro (rfl | ⟨rfl, -⟩)
    · exact absurd hc (by decide)
    · exact absurd hc (by decide)

theorem skipSpace_append (hs : ∀ c ∈ s, isSpace c ∧ c ≠ '\n')
    (ht : ∀ c ∈ t.head?, isSpace c = false) : skipSpace (s ++ t) = some t := by
  induction s with
  | nil => exact skipSpace_of_head ht
  | cons c s ih =>
    obtain ⟨hspace, hne⟩ := hs c List.mem_cons_self
    have hrest : ∀ d ∈ s, isSpace d ∧ d ≠ '\n' := fun d hd => hs d (List.mem_cons_of_mem c hd)
    have hnext : (s ++ t).head? ≠ some '\n' := by
      cases s with
      | nil =>
        intro hhead
        exact absurd (ht '\n' hhead) (by decide)
      | cons d s =>
        rintro ⟨⟩
        exact (hrest '\n' List.mem_cons_self).2 rfl
    have hbreak : ¬ (c = '\n' ∨ c = '\x0d' ∧ (s ++ t).head? = some '\n') := by
      rintro (hc | ⟨-, hhead⟩)
      · exact hne hc
      · exact hnext hhead
    rw [List.cons_append, skipSpace, if_neg hbreak, if_pos hspace]
    exact ih hrest

/-- What is skipped is blank. -/
theorem exists_of_skipSpace (h : skipSpace s = some t) :
    ∃ blanks, (∀ c ∈ blanks, isSpace c ∧ c ≠ '\n') ∧ s = blanks ++ t := by
  induction s with
  | nil =>
    cases h
    exact ⟨[], nofun, rfl⟩
  | cons c s ih =>
    rw [skipSpace] at h
    split_ifs at h with hbreak hspace
    · obtain ⟨blanks, hblanks, rfl⟩ := ih h
      refine ⟨c :: blanks, fun d hd => ?_, rfl⟩
      obtain rfl | hd := List.mem_cons.mp hd
      · exact ⟨hspace, fun hc => hbreak (.inl hc)⟩
      · exact hblanks d hd
    · cases h
      exact ⟨[], nofun, rfl⟩

theorem acceptSign_spec (s : List Char) : (acceptSign s).1 ∈ [[], ['+'], ['-']] ∧
    s = (acceptSign s).1 ++ (acceptSign s).2 := by
  unfold acceptSign
  split
  · simp
  · simp
  · simp

theorem acceptSign_append {sign : List Char} (hsign : sign ∈ [[], ['+'], ['-']])
    (hs : ∃ c ∈ s.head?, c.isDigit) : acceptSign (sign ++ s) = (sign, s) := by
  obtain ⟨c, hc, hdigit⟩ := hs
  obtain ⟨rest, rfl⟩ := List.head?_eq_some_iff.mp hc
  simp only [List.mem_cons, List.not_mem_nil, or_false] at hsign
  obtain rfl | rfl | rfl := hsign
  · unfold acceptSign
    split
    · next heq =>
      cases heq
      exact absurd hdigit (by decide)
    · next heq =>
      cases heq
      exact absurd hdigit (by decide)
    · rfl
  · rfl
  · rfl

namespace Numeral

theorem exists_head_digits (num : Numeral) : ∃ c ∈ (num.digits ++ num.rest).head?, c.isDigit := by
  obtain ⟨c, digits, hdigits⟩ := List.exists_cons_of_ne_nil num.digits_ne
  refine ⟨c, by rw [hdigits]; rfl, num.isDigit_digits c ?_⟩
  rw [hdigits]
  exact List.mem_cons_self

/-- The sign and the digits do not begin with a blank. -/
theorem isSpace_head (num : Numeral) :
    ∀ c ∈ (num.sign ++ (num.digits ++ num.rest)).head?, isSpace c = false := by
  intro c hc
  cases hsign : num.sign with
  | nil =>
    obtain ⟨d, hd, hdigit⟩ := num.exists_head_digits
    rw [hsign, List.nil_append, Option.mem_def, Option.mem_def.mp hd] at hc
    cases hc
    exact isSpace_of_isDigit hdigit
  | cons d sign =>
    rw [hsign] at hc
    cases hc
    exact (sign_spec _ num.sign_mem c (by rw [hsign]; exact List.mem_cons_self)).2

theorem takeWhile_digits (num : Numeral) :
    (num.digits ++ num.rest).takeWhile Char.isDigit = num.digits := by
  rw [List.takeWhile_append_of_pos num.isDigit_digits]
  cases hrest : num.rest with
  | nil => rw [List.takeWhile_nil, List.append_nil]
  | cons c rest =>
    have hc := num.rest_head c (by rw [hrest]; rfl)
    rw [List.takeWhile_cons_of_neg (by simp [hc]), List.append_nil]

end Numeral

/-- What is scanned begins the text. -/
theorem exists_numeral_of_scanInt (h : scanInt bits s = some n) :
    ∃ num : Numeral, num.text = s ∧ num.value = n ∧ Fits bits n := by
  obtain ⟨t, ht, hread⟩ := Option.bind_eq_some_iff.mp h
  obtain ⟨blanks, hblanks, hs⟩ := exists_of_skipSpace ht
  obtain ⟨hsign, hsplit⟩ := acceptSign_spec t
  obtain ⟨⟨hne, hfits⟩, hvalue⟩ := Option.ite_none_right_eq_some.mp hread
  cases hvalue
  refine ⟨⟨blanks, (acceptSign t).1, (acceptSign t).2.takeWhile Char.isDigit,
    (acceptSign t).2.dropWhile Char.isDigit, hblanks, hsign, hne,
    fun c hc => List.mem_takeWhile_imp hc, fun c hc => ?_⟩, ?_, rfl, hfits⟩
  · have hhead := List.head?_dropWhile_not Char.isDigit (acceptSign t).2
    rw [Option.mem_def.mp hc] at hhead
    simpa using hhead
  · show blanks ++ (acceptSign t).1 ++ (acceptSign t).2.takeWhile Char.isDigit ++
      (acceptSign t).2.dropWhile Char.isDigit = s
    rw [hs, List.append_assoc, List.takeWhile_append_dropWhile, List.append_assoc, ← hsplit]

/-- A numeral is scanned. -/
theorem scanInt_text (num : Numeral) (hfits : Fits bits num.value) :
    scanInt bits num.text = some num.value := by
  have hskip : skipSpace num.text = some (num.sign ++ (num.digits ++ num.rest)) := by
    rw [Numeral.text, List.append_assoc, List.append_assoc]
    exact skipSpace_append num.isSpace_blanks num.isSpace_head
  rw [scanInt, hskip, Option.bind_some, acceptSign_append num.sign_mem num.exists_head_digits]
  simp only [num.takeWhile_digits]
  exact if_pos ⟨num.digits_ne, hfits⟩

/-- **Scanning**: the value of a numeral that is the text, when it fits. -/
theorem scanInt_eq_some : scanInt bits s = some n ↔
    ∃ num : Numeral, num.text = s ∧ num.value = n ∧ Fits bits n := by
  refine ⟨exists_numeral_of_scanInt, ?_⟩
  rintro ⟨num, rfl, rfl, hfits⟩
  exact scanInt_text num hfits

namespace Numeral

/-- Digits are a numeral that has nothing else. -/
def ofDigits (digits : List Char) (hne : digits ≠ []) (h : ∀ c ∈ digits, c.isDigit) :
    Numeral :=
  ⟨[], [], digits, [], nofun, List.mem_cons_self, hne, h, nofun⟩

theorem text_ofDigits {digits : List Char} (hne : digits ≠ [])
    (h : ∀ c ∈ digits, c.isDigit) : (ofDigits digits hne h).text = digits := by
  simp [ofDigits, text]

/-- A numeral of digits only has no blanks, no sign and nothing behind it. -/
theorem plain_of_isDigit {num : Numeral} (h : ∀ c ∈ num.text, c.isDigit) : num.Plain := by
  have hmem {c : Char} (hc : c ∈ num.blanks ∨ c ∈ num.sign ∨ c ∈ num.rest) : c.isDigit := by
    refine h c ?_
    simp only [text, List.mem_append]
    tauto
  refine ⟨List.eq_nil_iff_forall_not_mem.mpr fun c hc => ?_, ?_, ?_⟩
  · have hspace := (num.isSpace_blanks c hc).1
    rw [isSpace_of_isDigit (hmem (.inl hc))] at hspace
    cases hspace
  · refine List.eq_nil_iff_forall_not_mem.mpr fun c hc => ?_
    have hdigit := (sign_spec _ num.sign_mem c hc).1
    rw [hmem (.inr (.inl hc))] at hdigit
    cases hdigit
  · cases hrest : num.rest with
    | nil => rfl
    | cons c rest =>
      have hdigit := hmem (c := c) (.inr (.inr (by rw [hrest]; exact List.mem_cons_self)))
      rw [num.rest_head c (by rw [hrest]; rfl)] at hdigit
      cases hdigit

end Numeral

end ScanInt
