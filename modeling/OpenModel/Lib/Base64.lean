import Mathlib.Data.List.Basic

/-!
# Base64 and Base16

Three bytes are written as four characters of an alphabet of sixty-four; an incomplete last
group is padded. In Base16 a byte is two hexadecimal digits, and the reader skips blanks between
bytes.

## Main results

- `Base64.decode_encode`: the bytes come back from their text
- `Base16.decode_encode`: the same in hexadecimal
-/

namespace Base64

/-- The character of a digit. -/
def charOf (n : Nat) : Char :=
  if n < 26 then Char.ofNat ('A'.toNat + n)
  else if n < 52 then Char.ofNat ('a'.toNat + (n - 26))
  else if n < 62 then Char.ofNat ('0'.toNat + (n - 52))
  else if n = 62 then '+'
  else '/'

/-- The digit of a character. -/
def indexOf (c : Char) : Option Nat :=
  if 'A' ≤ c ∧ c ≤ 'Z' then some (c.toNat - 'A'.toNat)
  else if 'a' ≤ c ∧ c ≤ 'z' then some (c.toNat - 'a'.toNat + 26)
  else if '0' ≤ c ∧ c ≤ '9' then some (c.toNat - '0'.toNat + 52)
  else if c = '+' then some 62
  else if c = '/' then some 63
  else none

def encode : List UInt8 → List Char
  | [] => []
  | [a] => [charOf (a.toNat / 4), charOf (a.toNat % 4 * 16), '=', '=']
  | [a, b] =>
    [charOf (a.toNat / 4), charOf (a.toNat % 4 * 16 + b.toNat / 16), charOf (b.toNat % 16 * 4), '=']
  | a :: b :: c :: rest =>
    charOf (a.toNat / 4) :: charOf (a.toNat % 4 * 16 + b.toNat / 16) ::
      charOf (b.toNat % 16 * 4 + c.toNat / 64) :: charOf (c.toNat % 64) :: encode rest

/-- A padded group. -/
def decodeLast (w x y : Char) : Option (List UInt8) := do
  let i ← indexOf w
  let j ← indexOf x
  if y = '=' then return [UInt8.ofNat (4 * i + j / 16)]
  else
    let k ← indexOf y
    return [UInt8.ofNat (4 * i + j / 16), UInt8.ofNat (j % 16 * 16 + k / 4)]

def decode : List Char → Option (List UInt8)
  | [] => some []
  | w :: x :: y :: z :: rest =>
    if z = '=' then if rest = [] then decodeLast w x y else none
    else do
      let i ← indexOf w
      let j ← indexOf x
      let k ← indexOf y
      let l ← indexOf z
      let bytes ← decode rest
      return UInt8.ofNat (4 * i + j / 16) :: UInt8.ofNat (j % 16 * 16 + k / 4) ::
        UInt8.ofNat (k % 4 * 64 + l) :: bytes
  | _ => none

theorem indexOf_charOf : ∀ n < 64, indexOf (charOf n) = some n := by decide

theorem charOf_ne_pad : ∀ n < 64, charOf n ≠ '=' := by decide

/-- A byte comes back from its bits. -/
theorem ofNat_eq {a : UInt8} {n : Nat} (h : n = a.toNat) : UInt8.ofNat n = a := by
  rw [h, UInt8.ofNat_toNat]

/-- **Round trip**: the bytes come back from their text. -/
theorem decode_encode (bytes : List UInt8) : decode (encode bytes) = some bytes := by
  induction bytes using encode.induct with
  | case1 => rfl
  | case2 a =>
    have ha : a.toNat < 256 := a.toNat_lt
    rw [encode, decode, if_pos rfl, if_pos rfl, decodeLast, indexOf_charOf _ (by omega),
      indexOf_charOf _ (by omega)]
    simp only [Option.bind_eq_bind, Option.bind_some, if_true]
    rw [ofNat_eq (a := a) (by omega)]
    rfl
  | case3 a b =>
    have ha : a.toNat < 256 := a.toNat_lt
    have hb : b.toNat < 256 := b.toNat_lt
    rw [encode, decode, if_pos rfl, if_pos rfl, decodeLast, indexOf_charOf _ (by omega),
      indexOf_charOf _ (by omega), indexOf_charOf _ (by omega)]
    simp only [Option.bind_eq_bind, Option.bind_some, if_neg (charOf_ne_pad _ (show b.toNat % 16 * 4 < 64 by omega))]
    rw [ofNat_eq (a := a) (by omega), ofNat_eq (a := b) (by omega)]
    rfl
  | case4 a b c rest ih =>
    have ha : a.toNat < 256 := a.toNat_lt
    have hb : b.toNat < 256 := b.toNat_lt
    have hc : c.toNat < 256 := c.toNat_lt
    rw [encode, decode, if_neg (charOf_ne_pad _ (by omega)), indexOf_charOf _ (by omega),
      indexOf_charOf _ (by omega), indexOf_charOf _ (by omega), indexOf_charOf _ (by omega), ih]
    simp only [Option.bind_eq_bind, Option.bind_some]
    rw [ofNat_eq (a := a) (by omega), ofNat_eq (a := b) (by omega), ofNat_eq (a := c) (by omega)]
    rfl

end Base64

namespace Base16

/-- The value of a digit, in both cases. -/
def digitValue (c : Char) : Option Nat :=
  if '0' ≤ c ∧ c ≤ '9' then some (c.toNat - '0'.toNat)
  else if 'a' ≤ c ∧ c ≤ 'f' then some (c.toNat - 'a'.toNat + 10)
  else if 'A' ≤ c ∧ c ≤ 'F' then some (c.toNat - 'A'.toNat + 10)
  else none

def isSpace (c : Char) : Bool :=
  c == ' ' || c == '\t' || c == '\n' || c == '\r' || c == '\x0b' || c == '\x0c'

/-- Two lower-case digits a byte. -/
def encode (bytes : List UInt8) : List Char :=
  bytes.flatMap fun a => [Nat.digitChar (a.toNat / 16), Nat.digitChar (a.toNat % 16)]

def decode : List Char → Option (List UInt8)
  | [] => some []
  | [c] => if isSpace c then some [] else none
  | c :: d :: rest =>
    if isSpace c then decode (d :: rest)
    else do
      let i ← digitValue c
      let j ← digitValue d
      let bytes ← decode rest
      return UInt8.ofNat (16 * i + j) :: bytes

theorem digitValue_digitChar : ∀ n < 16, digitValue (Nat.digitChar n) = some n := by decide

theorem isSpace_digitChar : ∀ n < 16, isSpace (Nat.digitChar n) = false := by decide

/-- **Round trip**: the bytes come back from their digits. -/
theorem decode_encode (bytes : List UInt8) : decode (encode bytes) = some bytes := by
  induction bytes with
  | nil => rfl
  | cons a bytes ih =>
    have ha : a.toNat < 256 := a.toNat_lt
    have htext : encode (a :: bytes) =
        Nat.digitChar (a.toNat / 16) :: Nat.digitChar (a.toNat % 16) :: encode bytes := rfl
    rw [htext, decode, isSpace_digitChar _ (by omega), digitValue_digitChar _ (by omega),
      digitValue_digitChar _ (by omega), ih]
    simp only [Bool.false_eq_true, if_false, Option.bind_eq_bind, Option.bind_some]
    rw [Base64.ofNat_eq (a := a) (by omega)]
    rfl

end Base16
