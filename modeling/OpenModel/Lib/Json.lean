import Mathlib.Algebra.BigOperators.Group.List.Basic
import OpenModel.Lib.Base64

/-!
# JSON texts

Values of strings, integers and objects, as Python's `json` writes and reads them. Strings are
written in ASCII: what is neither printable nor plain is escaped, and a character beyond the
first plane becomes two escapes, a surrogate pair. The reader takes blanks between tokens, both
cases of hexadecimal digits and every escape of the standard; it knows no fractions.

What is read back from a written text is what was written, also in front of further text, so a
text says which value it is of.

## Main results

- `readChar_escape`: one character
- `readString_quote`: a string ends at its own quote, whatever is in it
- `loads_dumps`: a value comes back from its text
- `dumps_injective`: a text is the text of one value
- `printable_of_mem_dumps`: a text is printable
-/

namespace Json

-- ════════════════════════════════════════════════════════════════════════
-- Characters
-- ════════════════════════════════════════════════════════════════════════

/-- Four hexadecimal digits. -/
def hex4 (n : Nat) : List Char :=
  [Nat.digitChar (n / 4096 % 16), Nat.digitChar (n / 256 % 16), Nat.digitChar (n / 16 % 16),
    Nat.digitChar (n % 16)]

def readHex4 : List Char → Option (Nat × List Char)
  | a :: b :: c :: d :: rest => do
    let n := 4096 * (← Base16.digitValue a) + 256 * (← Base16.digitValue b) + 16 * (← Base16.digitValue c) + (← Base16.digitValue d)
    return (n, rest)
  | _ => none

/-- The characters with an escape of their own, and its letter. -/
def shortEscapes : List (Char × Char) :=
  [('"', '"'), ('\\', '\\'), ('\x08', 'b'), ('\x0c', 'f'), ('\n', 'n'), ('\r', 'r'), ('\t', 't')]

/-- A character of a string, as it is written. -/
def escape (c : Char) : List Char :=
  match shortEscapes.lookup c with
  | some e => ['\\', e]
  | none =>
    if ' ' ≤ c ∧ c ≤ '~' then [c]
    else if c.toNat < 0x10000 then '\\' :: 'u' :: hex4 c.toNat
    else
      '\\' :: 'u' :: hex4 (0xD800 + (c.toNat - 0x10000) / 0x400) ++
        '\\' :: 'u' :: hex4 (0xDC00 + (c.toNat - 0x10000) % 0x400)

/-- Behind `\u`. A surrogate that is alone is no character. -/
def readUnicode (s : List Char) : Option (Char × List Char) := do
  let (n, rest) ← readHex4 s
  if 0xD800 ≤ n ∧ n < 0xDC00 then
    match rest with
    | '\\' :: 'u' :: rest =>
      let (m, rest) ← readHex4 rest
      if 0xDC00 ≤ m ∧ m < 0xE000 then
        return (Char.ofNat (0x10000 + 0x400 * (n - 0xD800) + (m - 0xDC00)), rest)
      else none
    | _ => none
  else if 0xDC00 ≤ n ∧ n < 0xE000 then none
  else return (Char.ofNat n, rest)

def unescape (e : Char) : Option Char :=
  if e = '/' then some '/' else (shortEscapes.find? (·.2 = e)).map Prod.fst

/-- One character of a string, in front of which there is no quote. -/
def readChar : List Char → Option (Char × List Char)
  | [] => none
  | '\\' :: 'u' :: rest => readUnicode rest
  | '\\' :: e :: rest => (unescape e).map (·, rest)
  | ['\\'] => none
  | c :: rest => if c < ' ' then none else some (c, rest)

theorem readHex4_hex4 {n : Nat} (hn : n < 0x10000) (rest : List Char) :
    readHex4 (hex4 n ++ rest) = some (n, rest) := by
  have hdigit (m : Nat) : Base16.digitValue (Nat.digitChar (m % 16)) = some (m % 16) :=
    Base16.digitValue_digitChar _ (Nat.mod_lt m (by decide))
  have hsum : 4096 * (n / 4096 % 16) + 256 * (n / 256 % 16) + 16 * (n / 16 % 16) + n % 16 = n := by
    omega
  simp [hex4, readHex4, hdigit, hsum]

theorem readUnicode_hex4 {c : Char} (hc : c.toNat < 0x10000) (rest : List Char) :
    readUnicode (hex4 c.toNat ++ rest) = some (c, rest) := by
  have hvalid : c.toNat < 0xD800 ∨ 0xDFFF < c.toNat ∧ c.toNat < 0x110000 := c.valid
  have hhigh : ¬ (0xD800 ≤ c.toNat ∧ c.toNat < 0xDC00) := by omega
  have hlow : ¬ (0xDC00 ≤ c.toNat ∧ c.toNat < 0xE000) := by omega
  simp [readUnicode, readHex4_hex4 hc, hhigh, hlow]

/-- A surrogate pair. -/
theorem readUnicode_pair {s rest rest' : List Char} {n m : Nat}
    (hn : readHex4 s = some (n, '\\' :: 'u' :: rest)) (hhigh : 0xD800 ≤ n ∧ n < 0xDC00)
    (hm : readHex4 rest = some (m, rest')) (hlow : 0xDC00 ≤ m ∧ m < 0xE000) :
    readUnicode s = some (Char.ofNat (0x10000 + 0x400 * (n - 0xD800) + (m - 0xDC00)), rest') := by
  simp [readUnicode, hn, hm, hhigh, hlow]

theorem readUnicode_surrogates {c : Char} (hc : ¬ c.toNat < 0x10000) (rest : List Char) :
    readUnicode (hex4 (0xD800 + (c.toNat - 0x10000) / 0x400) ++
      '\\' :: 'u' :: (hex4 (0xDC00 + (c.toNat - 0x10000) % 0x400) ++ rest)) = some (c, rest) := by
  have hvalid : c.toNat < 0xD800 ∨ 0xDFFF < c.toNat ∧ c.toNat < 0x110000 := c.valid
  generalize hn : 0xD800 + (c.toNat - 0x10000) / 0x400 = n
  generalize hm : 0xDC00 + (c.toNat - 0x10000) % 0x400 = m
  have hsum : 0x10000 + 0x400 * (n - 0xD800) + (m - 0xDC00) = c.toNat := by omega
  rw [readUnicode_pair (readHex4_hex4 (by omega) _) (by omega) (readHex4_hex4 (by omega) rest)
    (by omega), hsum, Char.ofNat_toNat]

theorem unescape_of_mem : ∀ p ∈ shortEscapes, p.2 ≠ 'u' ∧ unescape p.2 = some p.1 := by decide

theorem readChar_plain {c : Char} (hc : c ≠ '\\') (hle : ' ' ≤ c) (rest : List Char) :
    readChar (c :: rest) = some (c, rest) := by
  have hnot : ¬ c < ' ' := Char.not_lt.mpr hle
  unfold readChar
  split
  · next heq => cases heq
  · next heq => exact absurd (List.cons.inj heq).1 hc
  · next heq => exact absurd (List.cons.inj heq).1 hc
  · next heq => exact absurd (List.cons.inj heq).1 hc
  · next heq =>
    cases heq
    exact if_neg hnot

theorem readChar_short {e : Char} (he : e ≠ 'u') (rest : List Char) :
    readChar ('\\' :: e :: rest) = (unescape e).map (·, rest) := by
  unfold readChar
  split
  · next heq => cases heq
  · next heq =>
    cases heq
    exact absurd rfl he
  · next heq =>
    cases heq
    rfl
  · next heq => cases heq
  · next hnot _ heq =>
    cases heq
    exact absurd rfl (hnot e rest rfl)

/-- **Characters**: what was escaped is read back. -/
theorem readChar_escape (c : Char) (rest : List Char) :
    readChar (escape c ++ rest) = some (c, rest) := by
  unfold escape
  cases hlookup : shortEscapes.lookup c with
  | some e =>
    obtain ⟨l₁, l₂, heq, -⟩ := List.lookup_eq_some_iff.mp hlookup
    obtain ⟨hu, he⟩ := unescape_of_mem (c, e) (by rw [heq]; simp)
    show readChar ('\\' :: e :: rest) = _
    rw [readChar_short hu, he]
    rfl
  | none =>
    have hc : c ≠ '\\' := by
      rintro rfl
      cases hlookup
    by_cases hplain : ' ' ≤ c ∧ c ≤ '~'
    · simp only [if_pos hplain]
      exact readChar_plain hc hplain.1 rest
    · simp only [if_neg hplain]
      by_cases hsmall : c.toNat < 0x10000
      · rw [if_pos hsmall]
        exact readUnicode_hex4 hsmall rest
      · rw [if_neg hsmall]
        show readUnicode (hex4 _ ++ '\\' :: 'u' :: hex4 _ ++ rest) = _
        rw [List.append_assoc]
        exact readUnicode_surrogates hsmall rest

-- ════════════════════════════════════════════════════════════════════════
-- Strings
-- ════════════════════════════════════════════════════════════════════════

/-- A string between its quotes. -/
def quote (s : String) : List Char := '"' :: s.toList.flatMap escape ++ ['"']

/-- The characters up to the closing quote, at most `fuel - 1` of them. -/
def readChars : Nat → List Char → Option (List Char × List Char)
  | 0, _ => none
  | _ + 1, '"' :: rest => some ([], rest)
  | fuel + 1, s => do
    let (c, rest) ← readChar s
    let (cs, rest) ← readChars fuel rest
    return (c :: cs, rest)

/-- Behind the opening quote. -/
def readString (s : List Char) : Option (String × List Char) :=
  (readChars (s.length + 1) s).map fun (cs, rest) => (String.ofList cs, rest)

theorem head_escape_ne (c : Char) (rest rest' : List Char) : escape c ++ rest ≠ '"' :: rest' := by
  unfold escape
  split
  · simp
  · next hlookup =>
    split_ifs
    · intro heq
      rw [(List.cons.inj heq).1] at hlookup
      cases hlookup
    · simp
    · simp

theorem length_escape_pos (c : Char) : 0 < (escape c).length := by
  unfold escape
  split
  · exact Nat.zero_lt_succ _
  · split_ifs <;> exact Nat.zero_lt_succ _

theorem readChars_escape {cs : List Char} {fuel : Nat} (hfuel : cs.length < fuel) (rest : List Char) :
    readChars fuel (cs.flatMap escape ++ '"' :: rest) = some (cs, rest) := by
  induction cs generalizing fuel with
  | nil =>
    cases fuel with
    | zero => exact absurd hfuel (Nat.not_lt_zero _)
    | succ fuel => rfl
  | cons c cs ih =>
    cases fuel with
    | zero => exact absurd hfuel (Nat.not_lt_zero _)
    | succ fuel =>
      have htail : readChars fuel (cs.flatMap escape ++ '"' :: rest) = some (cs, rest) :=
        ih (by simpa using hfuel)
      rw [List.flatMap_cons, List.append_assoc, readChars]
      · simp [readChar_escape, htail]
      · exact fun rest' => head_escape_ne c _ rest'

/-- **Strings**: a string ends at its own quote, whatever is in it. -/
theorem readString_quote (s : String) (rest : List Char) :
    ∃ tail, quote s ++ rest = '"' :: tail ∧ readString tail = some (s, rest) := by
  refine ⟨s.toList.flatMap escape ++ '"' :: rest, by simp [quote], ?_⟩
  have hlength : s.toList.length ≤ (s.toList.flatMap escape).length := by
    rw [List.length_flatMap]
    have hone : ∀ n ∈ s.toList.map fun c => (escape c).length, 1 ≤ n := by
      rintro n hn
      obtain ⟨c, -, rfl⟩ := List.mem_map.mp hn
      exact length_escape_pos c
    simpa using List.length_le_sum_of_one_le _ hone
  rw [readString, readChars_escape]
  · simp
  · rw [List.length_append]
    omega

example : quote "\"\n\x7fß😀" = "\"\\\"\\n\\u007f\\u00df\\ud83d\\ude00\"".toList := by decide

-- ════════════════════════════════════════════════════════════════════════
-- Integers
-- ════════════════════════════════════════════════════════════════════════

/-- An integer in decimal digits. -/
def decimal : Int → List Char
  | .ofNat n => Nat.toDigits 10 n
  | .negSucc n => '-' :: Nat.toDigits 10 (n + 1)

/-- A number goes on with a fraction or an exponent. -/
def isFloat : List Char → Bool
  | c :: _ => c == '.' || c == 'e' || c == 'E'
  | [] => false

/-- Digits without a leading zero. -/
def readNat : List Char → Option (Nat × List Char)
  | '0' :: rest => some (0, rest)
  | s =>
    let digits := s.takeWhile Char.isDigit
    if digits = [] then none else some (Nat.ofDigitChars 10 digits 0, s.dropWhile Char.isDigit)

def readSigned : List Char → Option (Int × List Char)
  | '-' :: s => (readNat s).map fun (n, rest) => (-(n : Int), rest)
  | s => (readNat s).map fun (n, rest) => ((n : Int), rest)

/-- An integer; a fraction is not read. -/
def readInt (s : List Char) : Option (Int × List Char) :=
  (readSigned s).bind fun (n, rest) => if isFloat rest then none else some (n, rest)

/-- No digit and no fraction comes next. -/
def Delimited (rest : List Char) : Prop := ∀ c ∈ rest.head?, c.isDigit = false ∧ isFloat [c] = false

theorem Delimited.takeWhile {rest : List Char} (h : Delimited rest) :
    rest.takeWhile Char.isDigit = [] ∧ rest.dropWhile Char.isDigit = rest := by
  cases rest with
  | nil => exact ⟨rfl, rfl⟩
  | cons c rest =>
    have hc : c.isDigit = false := (h c rfl).1
    simp [hc]

theorem Delimited.isFloat {rest : List Char} (h : Delimited rest) : isFloat rest = false := by
  cases rest with
  | nil => rfl
  | cons c rest => exact (h c rfl).2

theorem head_toDigits_ne_zero {n : Nat} (hn : n ≠ 0) (rest rest' : List Char) :
    Nat.toDigits 10 n ++ rest ≠ '0' :: rest' := by
  induction n using Nat.strongRecOn generalizing rest with
  | ind n ih =>
    by_cases hlt : n < 10
    · have hdigit : ∀ d < 10, d ≠ 0 → Nat.digitChar d ≠ '0' := by decide
      rw [Nat.toDigits_of_lt_base hlt]
      intro heq
      exact hdigit n hlt hn (List.cons.inj heq).1
    · rw [Nat.toDigits_of_base_le (by decide) (by omega), List.append_assoc]
      exact ih (n / 10) (by omega) (by omega) _

theorem readNat_toDigits {n : Nat} {rest : List Char} (hrest : Delimited rest) :
    readNat (Nat.toDigits 10 n ++ rest) = some (n, rest) := by
  by_cases hn : n = 0
  · rw [hn]
    rfl
  · have hdigits : ∀ c ∈ Nat.toDigits 10 n, c.isDigit = true :=
      fun c hc => Nat.isDigit_of_mem_toDigits (by decide) (by decide) hc
    rw [readNat]
    · simp [List.takeWhile_append_of_pos hdigits, List.dropWhile_append_of_pos hdigits,
        hrest.takeWhile, Nat.toDigits_ne_nil]
    · exact fun rest' => head_toDigits_ne_zero hn rest rest'

theorem readSigned_decimal {n : Int} {rest : List Char} (hrest : Delimited rest) :
    readSigned (decimal n ++ rest) = some (n, rest) := by
  cases n with
  | ofNat n =>
    have hminus (s : List Char) : Nat.toDigits 10 n ++ rest ≠ '-' :: s := by
      intro heq
      cases hdigits : Nat.toDigits 10 n with
      | nil => exact Nat.toDigits_ne_nil hdigits
      | cons c cs =>
        rw [hdigits] at heq
        have hc : '-' ∈ Nat.toDigits 10 n := by
          rw [hdigits, (List.cons.inj heq).1]
          exact List.mem_cons_self
        exact absurd (Nat.isDigit_of_mem_toDigits (by decide) (by decide) hc) (by decide)
    rw [decimal, readSigned]
    · rw [readNat_toDigits hrest]
      rfl
    · exact hminus
  | negSucc n =>
    show (readNat (Nat.toDigits 10 (n + 1) ++ rest)).map _ = _
    rw [readNat_toDigits hrest]
    rfl

/-- **Integers**: what was written in decimal is read back. -/
theorem readInt_decimal {n : Int} {rest : List Char} (hrest : Delimited rest) :
    readInt (decimal n ++ rest) = some (n, rest) := by
  rw [readInt, readSigned_decimal hrest]
  simp [hrest.isFloat]

-- ════════════════════════════════════════════════════════════════════════
-- Values
-- ════════════════════════════════════════════════════════════════════════

end Json

/-- The values that are written and read here. The members of an object are in their order. -/
inductive JsonValue
  | int (n : Int)
  | str (s : String)
  | obj (members : List (String × JsonValue))

namespace Json

def isBlank (c : Char) : Bool := c == ' ' || c == '\t' || c == '\n' || c == '\r'

def skipBlanks (s : List Char) : List Char := s.dropWhile isBlank

/-- What is written behind a comma and behind a colon. -/
structure Padding where
  text : List Char
  blank : ∀ c ∈ text, isBlank c = true

/-- `separators=(",", ":")` -/
def compact : Padding := ⟨[], by simp⟩

/-- The default separators. -/
def spaced : Padding := ⟨[' '], by simp [isBlank]⟩

mutual

def dumps (pad : Padding) : JsonValue → List Char
  | .int n => decimal n
  | .str s => quote s
  | .obj members => '\x7b' :: dumpMembers pad members ++ ['\x7d']

def dumpMembers (pad : Padding) : List (String × JsonValue) → List Char
  | [] => []
  | (key, value) :: members =>
    quote key ++ ':' :: pad.text ++ dumps pad value ++
      match members with
      | [] => []
      | _ => ',' :: pad.text ++ dumpMembers pad members

end

mutual

/-- A value, with the blanks in front of it; `fuel` bounds the nesting and the members. -/
def readValue : Nat → List Char → Option (JsonValue × List Char)
  | 0, _ => none
  | fuel + 1, s =>
    match skipBlanks s with
    | '"' :: rest => (readString rest).map fun (s, rest) => (.str s, rest)
    | '\x7b' :: rest =>
      match skipBlanks rest with
      | '\x7d' :: rest => some (.obj [], rest)
      | rest => (readMembers fuel rest).map fun (members, rest) => (.obj members, rest)
    | s => (readInt s).map fun (n, rest) => (.int n, rest)

/-- The members of an object, from a key to the closing brace. -/
def readMembers : Nat → List Char → Option (List (String × JsonValue) × List Char)
  | 0, _ => none
  | fuel + 1, s =>
    match s with
    | '"' :: rest => do
      let (key, rest) ← readString rest
      match skipBlanks rest with
      | ':' :: rest => do
        let (value, rest) ← readValue fuel rest
        match skipBlanks rest with
        | '\x7d' :: rest => return ([(key, value)], rest)
        | ',' :: rest => do
          let (members, rest) ← readMembers fuel (skipBlanks rest)
          return ((key, value) :: members, rest)
        | _ => none
      | _ => none
    | _ => none

end

/-- `json.loads` -/
def loads (s : List Char) : Option JsonValue :=
  (readValue (s.length + 1) s).bind fun (value, rest) =>
    if skipBlanks rest = [] then some value else none

theorem skipBlanks_append {ws s : List Char} (hws : ∀ c ∈ ws, isBlank c = true)
    (hs : ∀ c ∈ s.head?, isBlank c = false) : skipBlanks (ws ++ s) = s := by
  rw [skipBlanks, List.dropWhile_append_of_pos hws]
  cases s with
  | nil => rfl
  | cons c s => exact List.dropWhile_cons_of_neg (by simp [hs c rfl])

theorem skipBlanks_cons {c : Char} {s : List Char} (hc : isBlank c = false) :
    skipBlanks (c :: s) = c :: s :=
  List.dropWhile_cons_of_neg (by simp [hc])

theorem head_decimal (n : Int) : ∃ c cs, decimal n = c :: cs ∧ (c = '-' ∨ c.isDigit = true) := by
  cases n with
  | ofNat n =>
    cases hdigits : Nat.toDigits 10 n with
    | nil => exact absurd hdigits Nat.toDigits_ne_nil
    | cons c cs =>
      have hc : c ∈ Nat.toDigits 10 n := by simp [hdigits]
      exact ⟨c, cs, hdigits, .inr (Nat.isDigit_of_mem_toDigits (by decide) (by decide) hc)⟩
  | negSucc n => exact ⟨'-', _, rfl, .inl rfl⟩

theorem readValue_int {n : Int} {fuel : Nat} {ws rest : List Char}
    (hws : ∀ c ∈ ws, isBlank c = true) (hrest : Delimited rest) :
    readValue (fuel + 1) (ws ++ (decimal n ++ rest)) = some (.int n, rest) := by
  obtain ⟨c, cs, hdecimal, hc⟩ := head_decimal n
  have hread := readInt_decimal (n := n) hrest
  have hplain : isBlank c = false ∧ c ≠ '"' ∧ c ≠ '\x7b' := by
    rcases hc with rfl | hdigit
    · decide
    · refine ⟨?_, ?_, ?_⟩
      · by_contra hblank
        simp only [isBlank, Bool.not_eq_false, Bool.or_eq_true, beq_iff_eq] at hblank
        rcases hblank with ((rfl | rfl) | rfl) | rfl <;> cases hdigit
      · rintro rfl
        cases hdigit
      · rintro rfl
        cases hdigit
  rw [hdecimal] at hread ⊢
  rw [readValue, skipBlanks_append hws (by simpa using hplain.1)]
  split
  · next heq => exact absurd (List.cons.inj heq).1 hplain.2.1
  · next heq => exact absurd (List.cons.inj heq).1 hplain.2.2
  · rw [hread]
    rfl

theorem readValue_str {s : String} {fuel : Nat} {ws rest : List Char}
    (hws : ∀ c ∈ ws, isBlank c = true) :
    readValue (fuel + 1) (ws ++ (quote s ++ rest)) = some (.str s, rest) := by
  obtain ⟨tail, htext, hread⟩ := readString_quote s rest
  rw [htext, readValue, skipBlanks_append hws (by simp [isBlank])]
  simp [hread]

/-- What follows a member. -/
def tailText (pad : Padding) (members : List (String × JsonValue)) : List Char :=
  match members with
  | [] => []
  | _ => ',' :: pad.text ++ dumpMembers pad members

theorem delimited_tail (pad : Padding) (members : List (String × JsonValue)) (rest : List Char) :
    Delimited (tailText pad members ++ '\x7d' :: rest) := by
  cases members with
  | nil =>
    rintro c ⟨⟩
    decide
  | cons m ms =>
    rintro c ⟨⟩
    decide

mutual

theorem readValue_dumps (pad : Padding) : ∀ (value : JsonValue) {fuel : Nat} {ws rest : List Char},
    (∀ c ∈ ws, isBlank c = true) → (dumps pad value).length ≤ fuel → Delimited rest →
    readValue fuel (ws ++ (dumps pad value ++ rest)) = some (value, rest)
  | .int n, fuel, ws, rest, hws, hfuel, hrest => by
    obtain ⟨c, cs, hdecimal, -⟩ := head_decimal n
    cases fuel with
    | zero => simp [dumps, hdecimal] at hfuel
    | succ fuel => exact readValue_int hws hrest
  | .str s, fuel, ws, rest, hws, hfuel, hrest => by
    cases fuel with
    | zero => simp [dumps, quote] at hfuel
    | succ fuel => exact readValue_str hws
  | .obj members, fuel, ws, rest, hws, hfuel, hrest => by
    cases fuel with
    | zero => simp [dumps] at hfuel
    | succ fuel =>
      have htext : dumps pad (.obj members) ++ rest =
          '\x7b' :: (dumpMembers pad members ++ '\x7d' :: rest) := by
        simp [dumps]
      rw [htext, readValue, skipBlanks_append hws (by simp [isBlank])]
      cases members with
      | nil => rfl
      | cons m ms =>
        have hmembers : readMembers fuel (dumpMembers pad (m :: ms) ++ '\x7d' :: rest) =
            some (m :: ms, rest) := by
          refine readMembers_dumps pad (m :: ms) (by simp) ?_
          simp only [dumps, List.length_cons, List.length_append] at hfuel
          omega
        obtain ⟨tail, hquote⟩ : ∃ tail, dumpMembers pad (m :: ms) ++ '\x7d' :: rest = '"' :: tail :=
          ⟨_, rfl⟩
        simp only
        rw [hquote] at hmembers ⊢
        rw [skipBlanks_cons (by decide)]
        show (readMembers fuel ('"' :: tail)).map _ = _
        rw [hmembers]
        rfl

theorem readMembers_dumps (pad : Padding) : ∀ (members : List (String × JsonValue)) {fuel : Nat}
    {rest : List Char}, members ≠ [] → (dumpMembers pad members).length ≤ fuel →
    readMembers fuel (dumpMembers pad members ++ '\x7d' :: rest) = some (members, rest)
  | [], _, _, hne, _ => absurd rfl hne
  | (key, value) :: members, 0, _, _, hfuel => by
    simp [dumpMembers, quote] at hfuel
  | (key, value) :: members, fuel + 1, rest, _, hfuel => by
    have hvalue : readValue fuel (pad.text ++ (dumps pad value ++
        (tailText pad members ++ '\x7d' :: rest))) =
          some (value, tailText pad members ++ '\x7d' :: rest) := by
      refine readValue_dumps pad value pad.blank ?_ (delimited_tail pad members rest)
      simp only [dumpMembers, List.length_append, List.length_cons] at hfuel
      omega
    obtain ⟨text, htext, hread⟩ := readString_quote key
      (':' :: (pad.text ++ (dumps pad value ++ (tailText pad members ++ '\x7d' :: rest))))
    have hwhole : dumpMembers pad ((key, value) :: members) ++ '\x7d' :: rest = '"' :: text := by
      rw [← htext]
      simp [dumpMembers, tailText]
    rw [hwhole, readMembers]
    simp only [hread, Option.bind_eq_bind, Option.bind_some,
      skipBlanks_cons (show isBlank ':' = false by decide), hvalue]
    cases members with
    | nil => rfl
    | cons m ms =>
      have hmembers : readMembers fuel (dumpMembers pad (m :: ms) ++ '\x7d' :: rest) =
          some (m :: ms, rest) := by
        refine readMembers_dumps pad (m :: ms) (by simp) ?_
        simp only [dumpMembers, List.length_append, List.length_cons] at hfuel ⊢
        omega
      have htail : tailText pad (m :: ms) ++ '\x7d' :: rest =
          ',' :: (pad.text ++ (dumpMembers pad (m :: ms) ++ '\x7d' :: rest)) := by
        simp [tailText]
      rw [htail, skipBlanks_cons (by decide)]
      simp only
      rw [skipBlanks_append pad.blank (by rintro c ⟨⟩; decide), hmembers]
      rfl

end

-- ════════════════════════════════════════════════════════════════════════
-- Texts
-- ════════════════════════════════════════════════════════════════════════

/-- **Round trip**: a value comes back from its text. -/
theorem loads_dumps (pad : Padding) (value : JsonValue) : loads (dumps pad value) = some value := by
  have hread : readValue ((dumps pad value).length + 1) ([] ++ (dumps pad value ++ [])) =
      some (value, []) :=
    readValue_dumps pad value (by simp) (Nat.le_succ _) (by simp [Delimited])
  rw [List.nil_append, List.append_nil] at hread
  rw [loads, hread]
  rfl

/-- **Texts**: a text is the text of one value. -/
theorem dumps_injective (pad : Padding) : Function.Injective (dumps pad) := by
  intro v w h
  have hread := loads_dumps pad v
  rw [h, loads_dumps] at hread
  exact (Option.some.inj hread).symm

-- ════════════════════════════════════════════════════════════════════════
-- Printable texts
-- ════════════════════════════════════════════════════════════════════════

/-- Neither a control character nor beyond ASCII. -/
def Printable (c : Char) : Prop := ' ' ≤ c ∧ c ≤ '~'

instance (c : Char) : Decidable (Printable c) := inferInstanceAs (Decidable (_ ∧ _))

theorem printable_of_mem_hex4 {n : Nat} {c : Char} (hc : c ∈ hex4 n) : Printable c := by
  have hdigit : ∀ d < 16, Printable (Nat.digitChar d) := by decide
  simp only [hex4, List.mem_cons, List.not_mem_nil, or_false] at hc
  rcases hc with rfl | rfl | rfl | rfl
  · exact hdigit _ (Nat.mod_lt _ (by decide))
  · exact hdigit _ (Nat.mod_lt _ (by decide))
  · exact hdigit _ (Nat.mod_lt _ (by decide))
  · exact hdigit _ (Nat.mod_lt _ (by decide))

theorem printable_of_mem_escape {c c' : Char} (hc : c' ∈ escape c) : Printable c' := by
  have hunicode {n : Nat} (h : c' ∈ '\\' :: 'u' :: hex4 n) : Printable c' := by
    rcases List.mem_cons.mp h with rfl | h
    · decide
    · rcases List.mem_cons.mp h with rfl | h
      · decide
      · exact printable_of_mem_hex4 h
  unfold escape at hc
  split at hc
  · next e hlookup =>
    obtain ⟨l₁, l₂, heq, -⟩ := List.lookup_eq_some_iff.mp hlookup
    have hletters : ∀ p ∈ shortEscapes, Printable p.2 := by decide
    rcases List.mem_cons.mp hc with rfl | hc
    · decide
    · rw [List.mem_singleton.mp hc]
      exact hletters (c, e) (by rw [heq]; simp)
  · split_ifs at hc with hplain
    · rw [List.mem_singleton.mp hc]
      exact hplain
    · exact hunicode hc
    · rcases List.mem_append.mp hc with hc | hc
      · exact hunicode hc
      · exact hunicode hc

theorem printable_of_mem_quote {s : String} {c : Char} (hc : c ∈ quote s) : Printable c := by
  rcases List.mem_append.mp hc with hc | hc
  · rcases List.mem_cons.mp hc with rfl | hc
    · decide
    · obtain ⟨x, -, hx⟩ := List.mem_flatMap.mp hc
      exact printable_of_mem_escape hx
  · rw [List.mem_singleton.mp hc]
    decide

theorem printable_of_isDigit {c : Char} (hc : c.isDigit = true) : Printable c := by
  obtain ⟨hzero, hnine⟩ := Char.isDigit_iff_toNat.mp hc
  have hspace : ' '.toNat ≤ c.toNat := Nat.le_trans (by decide) hzero
  have htilde : c.toNat ≤ '~'.toNat := Nat.le_trans hnine (by decide)
  exact ⟨UInt32.le_iff_toNat_le.mpr hspace, UInt32.le_iff_toNat_le.mpr htilde⟩

theorem printable_of_mem_decimal {n : Int} {c : Char} (hc : c ∈ decimal n) : Printable c := by
  have hdigits {m : Nat} (h : c ∈ Nat.toDigits 10 m) : Printable c :=
    printable_of_isDigit (Nat.isDigit_of_mem_toDigits (by decide) (by decide) h)
  cases n with
  | ofNat n => exact hdigits hc
  | negSucc n =>
    rcases List.mem_cons.mp hc with rfl | hc
    · decide
    · exact hdigits hc

mutual

/-- **Printable texts**: a text is printable, if its padding is. -/
theorem printable_of_mem_dumps {pad : Padding} (hpad : ∀ c ∈ pad.text, Printable c) :
    ∀ (value : JsonValue) {c : Char}, c ∈ dumps pad value → Printable c
  | .int _, _, hc => printable_of_mem_decimal hc
  | .str _, _, hc => printable_of_mem_quote hc
  | .obj members, c, hc => by
    rcases List.mem_append.mp hc with hc | hc
    · rcases List.mem_cons.mp hc with rfl | hc
      · decide
      · exact printable_of_mem_dumpMembers hpad members hc
    · rw [List.mem_singleton.mp hc]
      decide

theorem printable_of_mem_dumpMembers {pad : Padding} (hpad : ∀ c ∈ pad.text, Printable c) :
    ∀ (members : List (String × JsonValue)) {c : Char}, c ∈ dumpMembers pad members → Printable c
  | [], _, hc => by cases hc
  | (key, value) :: members, c, hc => by
    have hseparator {c' : Char} (hc' : Printable c') (h : c ∈ c' :: pad.text) : Printable c := by
      rcases List.mem_cons.mp h with rfl | h
      · exact hc'
      · exact hpad c h
    simp only [dumpMembers, List.mem_append] at hc
    rcases hc with ((hc | hc) | hc) | hc
    · exact printable_of_mem_quote hc
    · exact hseparator (by decide) hc
    · exact printable_of_mem_dumps hpad value hc
    · cases members with
      | nil => cases hc
      | cons m ms =>
        rcases List.mem_append.mp hc with hc | hc
        · exact hseparator (by decide) hc
        · exact printable_of_mem_dumpMembers hpad (m :: ms) hc

end

end Json
