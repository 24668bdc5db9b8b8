import Pros.Foundations.Arrays
import Pros.Lib.Number
import Pros.Lib.NumeralText

/-!
# `countDigit` and `itos`

The loops that divide by the base go through the digits of the number, the last one first. `reverse` turns
them around in place.
-/

namespace Pros

variable {base n : U32} {fuel : ℕ}

/-! ## Dividing by the base -/

theorem toNat_lt_pow (n : U32) (hb : 2 ≤ base.toNat) (hf : 32 ≤ fuel) : n.toNat < base.toNat ^ fuel :=
  calc n.toNat < 2 ^ 32 := n.isLt
    _ ≤ base.toNat ^ 32 := Nat.pow_le_pow_left hb 32
    _ ≤ base.toNat ^ fuel := Nat.pow_le_pow_right (by omega) hf

theorem toNat_ne_zero : n.toNat ≠ 0 ↔ n ≠ 0 := by
  rw [← BitVec.toNat_inj.ne]
  simp

/-- The digits of a number that is not zero: the remainder, then those of the quotient. -/
theorem digits_toNat (hb : 2 ≤ base.toNat) (hn : n ≠ 0) :
    Nat.digits base.toNat n.toNat = (n % base).toNat :: Nat.digits base.toNat (n / base).toNat := by
  rw [Nat.digits_eq_cons_digits_div hb (toNat_ne_zero.mpr hn), BitVec.toNat_umod, BitVec.toNat_udiv]

theorem toNat_div_lt (h : n.toNat < base.toNat ^ (fuel + 1)) :
    (n / base).toNat < base.toNat ^ fuel := by
  rw [BitVec.toNat_udiv]
  rw [pow_succ] at h
  exact Nat.div_lt_of_lt_mul (by rwa [mul_comm] at h)

/-- The loop of `countDigit` adds the number of digits. -/
theorem countDigitLoop_eq (hb : 2 ≤ base.toNat) (hn : n.toNat < base.toNat ^ fuel) (count : ℕ) :
    countDigitLoop base fuel n (BitVec.ofNat 32 count) =
      some (BitVec.ofNat 32 (count + (Nat.digits base.toNat n.toNat).length)) := by
  induction fuel generalizing n count with
  | zero =>
    have h0 : n = 0 := BitVec.eq_of_toNat_eq (by simpa using hn)
    simp [countDigitLoop, h0]
  | succ fuel ih =>
    rw [countDigitLoop]
    by_cases h0 : n = 0
    · simp [h0]
    · have hbase : base ≠ 0 := toNat_ne_zero.mp (by omega)
      rw [if_pos h0, if_neg hbase, show BitVec.ofNat 32 count + 1 = BitVec.ofNat 32 (count + 1) from
        (BitVec.ofNat_add count 1).symm, ih (toNat_div_lt hn), digits_toNat hb h0, List.length_cons]
      congr 2
      omega

/-- `countDigit` gives the number of digits of the numeral. -/
theorem countDigit_eq (n : U32) (hb : 2 ≤ base.toNat) (hf : 32 ≤ fuel) :
    countDigit fuel n base = some (BitVec.ofNat 32 (numeral base.toNat n.toNat).length) := by
  unfold countDigit
  split_ifs with h0
  · rw [h0]
    rfl
  · rw [numeral_of_ne_zero (toNat_ne_zero.mpr h0), List.length_reverse,
      show (0 : U32) = BitVec.ofNat 32 0 from rfl, countDigitLoop_eq hb (toNat_lt_pow n hb hf), Nat.zero_add]

/-- A 32-bit number has at most 32 digits. -/
theorem length_numeral_toNat_le (n : U32) (hb : 2 ≤ base.toNat) :
    (numeral base.toNat n.toNat).length ≤ 32 :=
  length_numeral_le hb (by omega) (toNat_lt_pow n hb le_rfl)

/-! ## Characters -/

/-- The character of a remainder. -/
theorem digitChar_eq {r : U32} (h : r.toNat < 32) : digitChar r = digitText r.toNat := by
  have hall : ∀ d < 32, digitChar (BitVec.ofNat 32 d) = digitText d := by decide
  simpa using hall r.toNat h

@[simp] theorem abs_eq (n : U32) : abs n = n := by
  unfold abs
  exact if_pos (Nat.zero_le _)

variable {α : Type} [DecidableEq α] [Add α] [NatCast α] [ArrayAddress α]

/-! ## `reverse` -/

theorem byte_swap (m : Memory α) (buffer : α) {i j k : ℕ} (hi : i < 2 ^ 32) (hj : j < 2 ^ 32)
    (hk : k < 2 ^ 32) :
    (swap m (buffer + (i : α)) (buffer + (j : α))).byte (buffer + (k : α)) =
      if k = j then m.byte (buffer + (i : α))
      else if k = i then m.byte (buffer + (j : α)) else m.byte (buffer + (k : α)) := by
  unfold swap
  simp only [Memory.byte_store8_add _ _ _ hj hk, Memory.byte_store8_add _ _ _ hi hk]

/-- `reverse` turns the bytes from `i` to `j` around and leaves the others alone. -/
theorem byte_reverse (m : Memory α) (buffer : α) {i j k : ℕ} (hj : j < 2 ^ 32) (hk : k < 2 ^ 32) :
    (reverse m buffer i j).byte (buffer + (k : α)) =
      if i ≤ k ∧ k ≤ j then m.byte (buffer + ((i + j - k : ℕ) : α)) else m.byte (buffer + (k : α)) := by
  induction j generalizing m i with
  | zero =>
    rw [reverse]
    split_ifs with h
    · rw [show i + 0 - k = k by omega]
    · rfl
  | succ j ih =>
    rw [reverse]
    split_ifs with hij h h
    · -- the outermost pair, or a byte between them
      rw [ih _ (by omega)]
      split_ifs with hin
      · rw [byte_swap _ _ (by omega) hj (by omega), if_neg (by omega), if_neg (by omega)]
        congr 3
        omega
      · rw [byte_swap _ _ (by omega) hj hk]
        have hends : k = i ∨ k = j + 1 := by omega
        rcases hends with rfl | rfl
        · rw [if_neg (by omega), if_pos rfl, show k + (j + 1) - k = j + 1 by omega]
        · rw [if_pos rfl, show i + (j + 1) - (j + 1) = i by omega]
    · rw [ih _ (by omega), if_neg (by omega), byte_swap _ _ (by omega) hj hk, if_neg (by omega),
        if_neg (by omega)]
    · rw [show i + (j + 1) - k = k by omega]
    · rfl

/-- Reversing the first bytes of an array. -/
theorem bytes_reverse (m : Memory α) (buffer : α) {n : ℕ} (h0 : 0 < n) (hn : n < 2 ^ 32) :
    (reverse m buffer 0 (n - 1)).bytes buffer n = (m.bytes buffer n).reverse := by
  refine List.ext_getElem (by simp) ?_
  intro k h1 h2
  have hk : k < n := by simpa using h1
  rw [Memory.getElem_bytes, List.getElem_reverse, Memory.getElem_bytes, byte_reverse _ _ (by omega) (by omega),
    if_pos (by omega), Memory.length_bytes]
  congr 3
  omega

omit [ArrayAddress α] in
/-- `reverse` stores only to the bytes it turns around. -/
theorem writesArray_reverse {m m' : Memory α} {buffer : α} {n i j : ℕ}
    (h : Memory.WritesArray m m' buffer n) (hj : j < n) :
    Memory.WritesArray m (reverse m' buffer i j) buffer n := by
  induction j generalizing m' i with
  | zero => exact h
  | succ j ih =>
    rw [reverse]
    split_ifs with hij
    · exact ih ((h.store8_lt (by omega) _).store8_lt hj _) (by omega)
    · exact h

/-! ## `itos` -/

/-- The loop of `itos` appends the digits to what is in the buffer, the last one first. -/
theorem itosLoop_eq {m m' : Memory α} {buffer : α} {k : ℕ} (hb : 2 ≤ base.toNat) (hb' : base.toNat ≤ 32)
    (hn : n.toNat < base.toNat ^ fuel) (hk : k + (Nat.digits base.toNat n.toNat).length < 2 ^ 32)
    (hw : Memory.WritesArray m m' buffer k) :
    ∃ m'', itosLoop buffer base fuel m' n (BitVec.ofNat 32 k) =
        some (m'', BitVec.ofNat 32 (k + (Nat.digits base.toNat n.toNat).length)) ∧
      m''.bytes buffer (k + (Nat.digits base.toNat n.toNat).length) =
        m'.bytes buffer k ++ (Nat.digits base.toNat n.toNat).map digitText ∧
      Memory.WritesArray m m'' buffer (k + (Nat.digits base.toNat n.toNat).length) := by
  induction fuel generalizing m' n k with
  | zero =>
    have h0 : n = 0 := BitVec.eq_of_toNat_eq (by simpa using hn)
    subst h0
    exact ⟨m', by simp [itosLoop], by simp, by simpa using hw⟩
  | succ fuel ih =>
    by_cases h0 : n = 0
    · subst h0
      exact ⟨m', by simp [itosLoop], by simp, by simpa using hw⟩
    · have hr : (n % base).toNat < 32 := by
        rw [BitVec.toNat_umod]
        exact (Nat.mod_lt _ (by omega)).trans_le hb'
      rw [digits_toNat hb h0, List.length_cons] at hk ⊢
      have hidx : (BitVec.ofNat 32 k).toNat = k := by
        rw [BitVec.toNat_ofNat]
        exact Nat.mod_eq_of_lt (by omega)
      obtain ⟨m'', hloop, hbytes, hw''⟩ := ih (toNat_div_lt hn) (by omega)
        (hw.store8_succ (digitChar (n % base)))
      refine ⟨m'', ?_, ?_, ?_⟩
      · rw [itosLoop, if_pos h0, hidx, show BitVec.ofNat 32 k + 1 = BitVec.ofNat 32 (k + 1) from
          (BitVec.ofNat_add k 1).symm]
        simp only [hloop]
        congr 3
        omega
      · rw [show k + ((Nat.digits base.toNat (n / base).toNat).length + 1) =
          k + 1 + (Nat.digits base.toNat (n / base).toNat).length by omega, hbytes,
          Memory.bytes_store8_succ _ _ _ (by omega), digitChar_eq hr]
        simp
      · rwa [show k + ((Nat.digits base.toNat (n / base).toNat).length + 1) =
          k + 1 + (Nat.digits base.toNat (n / base).toNat).length by omega]

/-- What `itos` has in the buffer before it adds the terminator: the numeral, turned around. -/
theorem itosDigits_eq (m : Memory α) (value : U32) (buffer : α) (hb : 2 ≤ base.toNat)
    (hb' : base.toNat ≤ 32) (hf : 32 ≤ fuel) :
    ∃ m' m'' i, itosLoop buffer base fuel m (abs value) 0 = some (m', i) ∧
      (if i = 0 then (m'.store8 (buffer + (i.toNat : α)) 0x30, i + 1) else (m', i)) =
        (m'', BitVec.ofNat 32 (numeral base.toNat value.toNat).length) ∧
      m''.bytes buffer (numeral base.toNat value.toNat).length =
        (numeralText base.toNat value.toNat).reverse ∧
      Memory.WritesArray m m'' buffer (numeral base.toNat value.toNat).length := by
  have hlen := length_numeral_toNat_le value hb
  by_cases h0 : value = 0
  · subst h0
    refine ⟨m, m.store8 (buffer + ((0 : ℕ) : α)) 0x30, 0, ?_, rfl, ?_, ?_⟩
    · cases fuel <;> simp [itosLoop]
    · exact Memory.bytes_store8_succ m buffer 0x30 (by omega)
    · exact (Memory.WritesArray.refl m buffer).store8_succ 0x30
  · have hnum := numeral_of_ne_zero (b := base.toNat) (toNat_ne_zero.mpr h0)
    rw [hnum, List.length_reverse] at hlen
    obtain ⟨m', hloop, hbytes, hw⟩ := itosLoop_eq hb hb' (toNat_lt_pow value hb hf)
      (show 0 + _ < 2 ^ 32 by omega) (Memory.WritesArray.refl m buffer)
    rw [Nat.zero_add] at hloop hbytes hw
    have hpos : (Nat.digits base.toNat value.toNat).length ≠ 0 := by
      rw [Ne, List.length_eq_zero_iff, Nat.digits_eq_nil_iff_eq_zero]
      exact toNat_ne_zero.mpr h0
    have hi : BitVec.ofNat 32 (Nat.digits base.toNat value.toNat).length ≠ 0 := by
      rw [← toNat_ne_zero, BitVec.toNat_ofNat, Nat.mod_eq_of_lt (by omega)]
      exact hpos
    rw [numeralText, hnum, List.length_reverse]
    refine ⟨m', m', _, ?_, if_neg hi, ?_, hw⟩
    · rw [abs_eq]
      exact hloop
    · rw [hbytes, Memory.bytes_zero, List.nil_append, List.map_reverse, List.reverse_reverse]

/-- `itos` returns, and has written the numeral and a terminator behind it. -/
theorem itos_eq (m : Memory α) (value : U32) (buffer : α) (hb : 2 ≤ base.toNat) (hb' : base.toNat ≤ 32)
    (hf : 32 ≤ fuel) :
    ∃ m', itos fuel m value buffer base = some m' ∧
      m'.bytes buffer (numeral base.toNat value.toNat).length = numeralText base.toNat value.toNat ∧
      m'.byte (buffer + (((numeral base.toNat value.toNat).length : ℕ) : α)) = 0 ∧
      Memory.WritesArray m m' buffer ((numeral base.toNat value.toNat).length + 1) := by
  obtain ⟨m', m'', i, hloop, hzero, hbytes, hw⟩ := itosDigits_eq m value buffer hb hb' hf
  have hlen := length_numeral_toNat_le value hb
  have hpos : 0 < (numeral base.toNat value.toNat).length :=
    List.length_pos_iff.mpr (numeral_ne_nil _ _)
  generalize (numeral base.toNat value.toNat).length = len at *
  have hidx : (BitVec.ofNat 32 len).toNat = len := by
    rw [BitVec.toNat_ofNat, Nat.mod_eq_of_lt (by omega)]
  have hidx' : (BitVec.ofNat 32 len - 1).toNat = len - 1 := by
    rw [BitVec.toNat_sub_of_le (by rw [BitVec.le_def, hidx]; exact hpos), hidx]
    rfl
  have hrange : (base.slt 2 || (32 : U32).slt base) = false := by
    have htoInt : base.toInt = base.toNat := BitVec.toInt_eq_toNat_of_lt (by omega)
    simp only [BitVec.slt, htoInt, Bool.or_eq_false_iff, decide_eq_false_iff_not]
    constructor
    · show ¬ (base.toNat : ℤ) < 2
      omega
    · show ¬ (32 : ℤ) < base.toNat
      omega
  have hunsigned : ¬ (value < 0 ∧ base = 10) := fun h => Nat.not_lt_zero _ h.1
  refine ⟨reverse (m''.store8 (buffer + (len : α)) 0) buffer 0 (len - 1), ?_, ?_, ?_, ?_⟩
  · simp only [itos, hrange, Bool.false_eq_true, if_false, hloop, Option.bind_eq_bind, Option.bind_some, hzero,
      if_neg hunsigned, hidx, hidx']
    rfl
  · rw [bytes_reverse _ _ hpos (by omega), Memory.bytes_store8_of_le le_rfl (by omega), hbytes,
      List.reverse_reverse]
  · rw [byte_reverse _ _ (by omega) (by omega), if_neg (by omega), Memory.byte_store8_same]
  · exact writesArray_reverse (hw.store8_succ 0) (by omega)

/-- `countDigit` counts what `itos` writes, and reading the text gives the number back. -/
theorem itos_roundtrip (m : Ram) (value buffer base : U32) (hb : 2 ≤ base.toNat) (hb' : base.toNat ≤ 32)
    (hf : 32 ≤ fuel) :
    ∃ m' count, itos fuel m value buffer base = some m' ∧ countDigit fuel value base = some count ∧
      m.WritesArray m' buffer (count.toNat + 1) ∧ m'.byte (buffer + count) = 0 ∧
      (∀ c ∈ m'.bytes buffer count.toNat, ∃ d < base.toNat, alphabet[d]? = some c) ∧
      ((m'.bytes buffer count.toNat).head? = alphabet[0]? → value = 0) ∧
      readNumeral base.toNat (m'.bytes buffer count.toNat) = value.toNat := by
  obtain ⟨m', hitos, hbytes, hnul, hw⟩ := itos_eq m value buffer hb hb' hf
  have hlen := length_numeral_toNat_le value hb
  have hcount : (BitVec.ofNat 32 (numeral base.toNat value.toNat).length).toNat =
      (numeral base.toNat value.toNat).length := by
    rw [BitVec.toNat_ofNat, Nat.mod_eq_of_lt (by omega)]
  refine ⟨m', _, hitos, countDigit_eq value hb hf, ?_, hnul, ?_⟩
  · rwa [hcount]
  · rw [hcount, hbytes]
    refine ⟨fun c hc => exists_digit_of_mem_numeralText (by omega) hb' hc, fun hhead => ?_,
      readNumeral_numeralText _ (by omega) hb'⟩
    have hzero := eq_zero_of_head_numeralText (by omega) hb' (hhead.trans (getElem?_alphabet (by omega)))
    exact BitVec.eq_of_toNat_eq hzero

theorem itos_roundtrip_minusOne :
    ∃ m' count, itos 32 ({ byte := fun _ => 7 } : Ram) (-1) 0xC0000000 32 = some m' ∧
      countDigit 32 (-1) 32 = some count ∧
      Memory.WritesArray { byte := fun _ => 7 } m' 0xC0000000 (count.toNat + 1) ∧
      m'.byte (0xC0000000 + count) = 0 ∧
      (∀ c ∈ m'.bytes 0xC0000000 count.toNat, ∃ d < 32, alphabet[d]? = some c) ∧
      ((m'.bytes 0xC0000000 count.toNat).head? = alphabet[0]? → (-1 : U32) = 0) ∧
      readNumeral 32 (m'.bytes 0xC0000000 count.toNat) = 4294967295 :=
  itos_roundtrip { byte := fun _ => 7 } (-1) 0xC0000000 32 (by decide) (by decide) le_rfl

end Pros
