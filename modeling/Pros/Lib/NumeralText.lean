import Pros.Foundations.Numeral
import Pros.Lib.Types

/-!
# The text of a number

What the texts that `itos` writes are meant to be: numerals in the digits `0` to `9` and `A` to `V`, and for a
signed number the decimal numeral of its absolute value, after a minus sign when it is negative.
-/

namespace Pros

/-- The digits, in the order of their values: `'0'` to `'9'`, then `'A'` to `'V'`. -/
def alphabet : List U8 :=
  (List.range 10).map (fun i => BitVec.ofNat 8 (0x30 + i)) ++
    (List.range 22).map fun i => BitVec.ofNat 8 (0x41 + i)

/-- The character of a digit. -/
def digitText (d : ℕ) : U8 := alphabet.getD d 0

/-- The digit of a character. -/
def digitValue (c : U8) : ℕ := alphabet.idxOf c

/-- The text of a number in a base. -/
def numeralText (base n : ℕ) : List U8 := (numeral base n).map digitText

/-- The number that a text stands for. -/
def readNumeral (base : ℕ) (text : List U8) : ℕ := numeralValue base (text.map digitValue)

/-- `'-'`. -/
def minusSign : U8 := 0x2D

/-- The decimal text of a signed number. -/
def signedText (n : ℤ) : List U8 :=
  if n < 0 then minusSign :: numeralText 10 n.natAbs else numeralText 10 n.natAbs

example : signedText (-2147483648) = [0x2D, 0x32, 0x31, 0x34, 0x37, 0x34, 0x38, 0x33, 0x36, 0x34, 0x38] := by
  decide

theorem digitValue_digitText : ∀ {d : ℕ}, d < 32 → digitValue (digitText d) = d := by decide

theorem getElem?_alphabet : ∀ {d : ℕ}, d < 32 → alphabet[d]? = some (digitText d) := by decide

/-- Reading a numeral back. -/
theorem readNumeral_numeralText {base : ℕ} (n : ℕ) (h1 : 1 < base) (h2 : base ≤ 32) :
    readNumeral base (numeralText base n) = n := by
  have hmap : (numeralText base n).map digitValue = (numeral base n).map id := by
    rw [numeralText, List.map_map]
    refine List.map_congr_left ?_
    intro d hd
    have := lt_of_mem_numeral h1 hd
    exact digitValue_digitText (by omega)
  rw [readNumeral, hmap, List.map_id, numeralValue_numeral]

/-- Every character of a numeral is a digit below the base. -/
theorem exists_digit_of_mem_numeralText {base n : ℕ} (h1 : 1 < base) (h2 : base ≤ 32) {c : U8}
    (hc : c ∈ numeralText base n) : ∃ d < base, alphabet[d]? = some c := by
  obtain ⟨d, hd, rfl⟩ := List.mem_map.mp hc
  have hlt := lt_of_mem_numeral h1 hd
  exact ⟨d, hlt, getElem?_alphabet (by omega)⟩

/-- Only the numeral of zero starts with `'0'`. -/
theorem eq_zero_of_head_numeralText {base n : ℕ} (h1 : 1 < base) (h2 : base ≤ 32)
    (h : (numeralText base n).head? = some (digitText 0)) : n = 0 := by
  rw [numeralText, List.head?_map, List.head?_eq_some_head (numeral_ne_nil base n)] at h
  have hd := lt_of_mem_numeral h1 (List.head_mem (numeral_ne_nil base n))
  have hv := congrArg digitValue (Option.some.inj h)
  rw [digitValue_digitText (by omega), digitValue_digitText (by omega)] at hv
  exact head_numeral hv

@[simp] theorem length_numeralText (base n : ℕ) : (numeralText base n).length = (numeral base n).length :=
  List.length_map ..

/-- No digit is a minus sign. -/
theorem minusSign_notMem_numeralText {base n : ℕ} (h1 : 1 < base) (h2 : base ≤ 32) :
    minusSign ∉ numeralText base n := by
  intro hc
  obtain ⟨d, hd, hm⟩ := exists_digit_of_mem_numeralText h1 h2 hc
  have hmem : minusSign ∈ alphabet := List.mem_of_getElem? hm
  revert hmem
  decide

end Pros
