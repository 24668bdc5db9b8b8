import Pros.Foundations.Memory
import Mathlib.Data.Nat.Count

/-!
# Bitmaps in byte arrays

An unbounded byte array is read as a bitmap: bit `b` is bit `b % 8` of byte `b / 8`. As words are stored
least significant byte first, it is also bit `b % 32` of the word at `4 * (b / 32)`, which is how code
that keeps a bitmap in an array of words finds it.

The second part counts. The number of set bits below a bound changes by the number of bits that a change
to the bitmap flips.
-/

namespace Memory

/-- Bit `b` of the bitmap. -/
def bit (m : Memory ℕ) (b : ℕ) : Bool := (m.byte (b / 8)).getLsbD (b % 8)

theorem byte_eq_of_bit_eq {m m' : Memory ℕ} (h : ∀ b, m'.bit b = m.bit b) : m'.byte = m.byte := by
  funext a
  apply BitVec.eq_of_getLsbD_eq
  intro i hi
  have hbit := h (8 * a + i)
  unfold bit at hbit
  rwa [show (8 * a + i) / 8 = a by omega, show (8 * a + i) % 8 = i by omega] at hbit

/-- The bits of a word of the bitmap. -/
theorem getLsbD_load32_word (m : Memory ℕ) (b : ℕ) :
    (m.load32 (4 * (b / 32))).getLsbD (b % 32) = m.bit b := by
  have h1 : 4 * (b / 32) + b % 32 / 8 = b / 8 := by omega
  have h2 : b % 32 % 8 = b % 8 := by omega
  rw [getLsbD_load32 _ _ (by omega), bit, Nat.cast_id, h1, h2]

/-- Storing a word replaces its 32 bits. -/
theorem bit_store32_word (m : Memory ℕ) (i : ℕ) (v : BitVec 32) (b : ℕ) :
    (m.store32 (4 * i) v).bit b = if b / 32 = i then v.getLsbD (b % 32) else m.bit b := by
  split_ifs with h
  · rw [← getLsbD_load32_word, h, load32_store32]
  · unfold bit
    rw [byte_store32_of_ne]
    intro j hj
    simp only [Nat.cast_id]
    omega

/-- A byte of the bitmap is read through its bits. -/
theorem bit_of_byte {m : Memory ℕ} {b : ℕ} {v : BitVec 8} (h : m.byte (b / 8) = v) :
    m.bit b = v.getLsbD (b % 8) := by
  rw [bit, h]

end Memory

/-! ## Counting -/

namespace Bitmap

variable {p q : ℕ → Prop} [DecidablePred p] [DecidablePred q]

/-- The count below a bound looks at nothing else. -/
theorem count_congr {bound : ℕ} (h : ∀ b < bound, p b ↔ q b) : Nat.count p bound = Nat.count q bound := by
  apply le_antisymm
  · exact Nat.count_mono_left fun b hb => (h b hb).mp
  · exact Nat.count_mono_left fun b hb => (h b hb).mpr

/-- Adding a run of `n` elements below the bound adds `n` to the count. -/
theorem count_add_run {f n bound : ℕ} (hbound : f + n ≤ bound)
    (hp : ∀ b, f ≤ b → b < f + n → ¬ p b) (hq : ∀ b, q b ↔ p b ∨ f ≤ b ∧ b < f + n) :
    Nat.count q bound = Nat.count p bound + n := by
  obtain ⟨r, rfl⟩ := Nat.exists_eq_add_of_le hbound
  have hlow : Nat.count q f = Nat.count p f := count_congr fun b hb => by
    rw [hq]; constructor
    · rintro (h | h)
      · exact h
      · omega
    · exact Or.inl
  have hrun : Nat.count (fun k => q (f + k)) n = n :=
    Nat.count_iff_forall.mpr fun b hb => (hq _).mpr (Or.inr ⟨by omega, by omega⟩)
  have hrun' : Nat.count (fun k => p (f + k)) n = 0 :=
    Nat.count_iff_forall_not.mpr fun b hb => hp _ (by omega) (by omega)
  have hhigh : Nat.count (fun k => q (f + n + k)) r = Nat.count (fun k => p (f + n + k)) r :=
    count_congr fun b hb => by
      rw [hq]; constructor
      · rintro (h | h)
        · exact h
        · omega
      · exact Or.inl
  rw [Nat.count_add, Nat.count_add, Nat.count_add, Nat.count_add, hlow, hrun, hrun', hhigh]
  omega

/-- The elements below the bound and the others make up the bound. -/
theorem count_not (bound : ℕ) : Nat.count p bound + Nat.count (fun b => ¬ p b) bound = bound := by
  induction bound with
  | zero => rfl
  | succ n ih =>
    rw [Nat.count_succ, Nat.count_succ]
    by_cases h : p n
    · rw [if_pos h, if_neg (not_not.mpr h)]; omega
    · rw [if_neg h, if_pos h]; omega

end Bitmap
