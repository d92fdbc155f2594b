import OpenModel.Lib.ScanInt

/-!
# The miner's id

`parseMinerID` takes the number out of an address such as `t0182063` and is to return 0 for
malformed input. Behind the prefix it leaves everything to `fmt.Sscanf`, which skips blanks,
accepts a sign and does not look at what follows the digits.

## Main results

- `parsesExactly_iff`: the addresses of which the grammar and the code think the same
-/

namespace OpenModel.Scheduler

open ScanInt

/-- `t0` and `f0` -/
def minerPrefixes : List (List Char) := ["t0".toList, "f0".toList]

def parseMinerID (addr : List Char) : Int :=
  if 2 < addr.length ∧ addr.take 2 ∈ minerPrefixes then (scanInt 63 (addr.drop 2)).getD 0 else 0

/-- The grammar: a prefix and decimal digits, whose value is `n`. -/
def IsMinerID (addr : List Char) (n : Int) : Prop :=
  ∃ pre ∈ minerPrefixes, ∃ digits, addr = pre ++ digits ∧ digits ≠ [] ∧
    (∀ c ∈ digits, c.isDigit) ∧ n = Nat.ofDigitChars 10 digits 0 ∧ n < 2 ^ 63

/-- The value of an address of the grammar, and 0 for any other one. -/
structure ParsesExactly (addr : List Char) : Prop where
  accepts : ∀ n, IsMinerID addr n → parseMinerID addr = n
  rejects : (∀ n, ¬ IsMinerID addr n) → parseMinerID addr = 0

/-- Where the text behind a prefix begins with an integer other than 0, it is just its digits. -/
def JustDigits (addr : List Char) : Prop :=
  ∀ pre ∈ minerPrefixes, ∀ num : Numeral, addr = pre ++ num.text → Fits 63 num.value →
    num.value ≠ 0 → num.Plain

variable {addr : List Char} {n : Int}

theorem length_of_mem_minerPrefixes : ∀ pre ∈ minerPrefixes, pre.length = 2 := by decide

theorem parseMinerID_append {pre : List Char} (hpre : pre ∈ minerPrefixes) (num : Numeral)
    (hfits : Fits 63 num.value) : parseMinerID (pre ++ num.text) = num.value := by
  have hlen := length_of_mem_minerPrefixes pre hpre
  have htext : 0 < num.text.length := by
    have hdigits := List.length_pos_iff.mpr num.digits_ne
    simp only [Numeral.text, List.length_append]
    omega
  have hscan : scanInt 63 num.text = some num.value := scanInt_text num hfits
  rw [parseMinerID, if_pos, List.drop_append_of_le_length hlen.ge, List.drop_of_length_le hlen.le,
    List.nil_append, hscan, Option.getD_some]
  refine ⟨by rw [List.length_append]; omega, ?_⟩
  rw [← hlen, List.take_left]
  exact hpre

/-- A number other than 0 was scanned. -/
theorem exists_numeral_of_ne (h : parseMinerID addr ≠ 0) :
    ∃ pre ∈ minerPrefixes, ∃ num : Numeral, addr = pre ++ num.text ∧
      num.value = parseMinerID addr ∧ Fits 63 num.value := by
  unfold parseMinerID at h ⊢
  split_ifs at h ⊢ with haddr
  · cases hscan : scanInt 63 (addr.drop 2) with
    | none =>
      rw [hscan] at h
      exact absurd rfl h
    | some n =>
      obtain ⟨num, htext, rfl, hfits⟩ := scanInt_eq_some.mp hscan
      exact ⟨addr.take 2, haddr.2, num, by rw [htext, List.take_append_drop], rfl, hfits⟩
  · exact absurd rfl h

/-- **Miner ids**: the code follows the grammar exactly on the addresses in which a number
behind the prefix has nothing around it. -/
theorem parsesExactly_iff : ParsesExactly addr ↔ JustDigits addr := by
  constructor
  · rintro hexact pre hpre num rfl hfits hne
    have hparse := parseMinerID_append hpre num hfits
    by_cases hid : ∃ n, IsMinerID (pre ++ num.text) n
    · obtain ⟨n, pre', hpre', digits, haddr, -, hdigits, -, -⟩ := hid
      have hlen := (length_of_mem_minerPrefixes pre hpre).trans
        (length_of_mem_minerPrefixes pre' hpre').symm
      obtain ⟨-, rfl⟩ := List.append_inj haddr hlen
      exact Numeral.plain_of_isDigit hdigits
    · have hzero := hexact.rejects fun n hn => hid ⟨n, hn⟩
      rw [hparse] at hzero
      exact absurd hzero hne
  · intro hjust
    refine ⟨?_, fun hnot => ?_⟩
    · rintro n ⟨pre, hpre, digits, rfl, hne, hdigits, rfl, hlt⟩
      have hparse := parseMinerID_append hpre (Numeral.ofDigits digits hne hdigits)
        ⟨by show (-2 ^ 63 : Int) ≤ (Nat.ofDigitChars 10 digits 0 : Int); omega, hlt⟩
      rwa [Numeral.text_ofDigits] at hparse
    · by_contra hne
      obtain ⟨pre, hpre, num, haddr, hvalue, hfits⟩ := exists_numeral_of_ne hne
      obtain ⟨hblanks, hsign, hrest⟩ := hjust pre hpre num haddr hfits (hvalue ▸ hne)
      have hdigits : num.value = Nat.ofDigitChars 10 num.digits 0 := by
        rw [Numeral.value, hsign]
        rfl
      refine hnot num.value ⟨pre, hpre, num.digits, ?_, num.digits_ne, num.isDigit_digits, hdigits,
        hfits.2⟩
      rw [haddr, Numeral.text, hblanks, hsign, hrest]
      simp

/-- A number is read although something in the address is no digit. -/
theorem not_parsesExactly_of_mem {c : Char} (hc : c ∈ addr.drop 2) (hdigit : c.isDigit = false)
    (hne : parseMinerID addr ≠ 0) : ¬ ParsesExactly addr := by
  intro hexact
  refine hne (hexact.rejects fun n => ?_)
  rintro ⟨pre, hpre, digits, rfl, -, hdigits, -, -⟩
  rw [← length_of_mem_minerPrefixes pre hpre, List.drop_left] at hc
  rw [hdigits c hc] at hdigit
  cases hdigit

/-- Letters behind the id, a sign and a blank in front of it. -/
theorem looseAddresses_not_parsesExactly :
    ¬ ParsesExactly "t0182063abc".toList ∧ ¬ ParsesExactly "t0-5".toList ∧
      ¬ ParsesExactly "f0 185520".toList := by
  refine ⟨not_parsesExactly_of_mem (c := 'a') ?_ rfl ?_,
    not_parsesExactly_of_mem (c := '-') ?_ rfl ?_, not_parsesExactly_of_mem (c := ' ') ?_ rfl ?_⟩
  all_goals decide

end OpenModel.Scheduler
