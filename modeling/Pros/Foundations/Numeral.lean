import Mathlib.Data.Nat.Digits.Lemmas

/-!
# Numerals

The numeral of a number in a base: its digits, most significant first and without leading zeros, where the
numeral of zero is a single zero. Its digits are below the base, and its value is the number
(`numeralValue_numeral`).
-/

/-- The digits of `n` in base `b`, most significant first. -/
def numeral (b n : ℕ) : List ℕ := if n = 0 then [0] else (Nat.digits b n).reverse

/-- The number that a list of digits stands for, most significant first. -/
def numeralValue (b : ℕ) (ds : List ℕ) : ℕ := Nat.ofDigits b ds.reverse

variable {b n : ℕ}

@[simp] theorem numeral_zero (b : ℕ) : numeral b 0 = [0] := rfl

theorem numeral_of_ne_zero (hn : n ≠ 0) : numeral b n = (Nat.digits b n).reverse := if_neg hn

theorem numeral_ne_nil (b n : ℕ) : numeral b n ≠ [] := by
  unfold numeral
  split_ifs with h
  · simp
  · simpa [Nat.digits_eq_nil_iff_eq_zero] using h

/-- The value of the numeral of `n` is `n`. -/
theorem numeralValue_numeral (b n : ℕ) : numeralValue b (numeral b n) = n := by
  unfold numeralValue
  by_cases hn : n = 0
  · simp [hn]
  · rw [numeral_of_ne_zero hn, List.reverse_reverse, Nat.ofDigits_digits]

theorem lt_of_mem_numeral (hb : 1 < b) {d : ℕ} (hd : d ∈ numeral b n) : d < b := by
  unfold numeral at hd
  split_ifs at hd with h
  · rw [List.mem_singleton.mp hd]
    omega
  · exact Nat.digits_lt_base hb (List.mem_reverse.mp hd)

/-- Only the numeral of zero starts with a zero. -/
theorem head_numeral (h : (numeral b n).head (numeral_ne_nil b n) = 0) : n = 0 := by
  by_contra hn
  simp only [numeral_of_ne_zero hn, List.head_reverse] at h
  exact Nat.getLast_digit_ne_zero b hn h

/-- As many digits as it takes for the powers of the base to exceed the number. -/
theorem length_numeral_le (hb : 1 < b) {k : ℕ} (hk : 0 < k) (h : n < b ^ k) : (numeral b n).length ≤ k := by
  by_cases hn : n = 0
  · rw [hn]
    exact hk
  · rw [numeral_of_ne_zero hn, List.length_reverse]
    exact (Nat.digits_length_le_iff hb n).mpr h
