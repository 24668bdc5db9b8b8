import Pros.Foundations.Arrays
import Pros.Lib.String

/-!
# Loads and stores at byte positions

Positions are natural numbers, pointers are their values modulo `2 ^ 32`. Two positions less than
`2 ^ 32` apart have different pointers, so a store leaves alone what it does not meet, even where the
positions run past the end of the address space.
-/

namespace Pros

/-! ## Pointers -/

theorem toNat_ptr (p : ℕ) : (ptr p).toNat = p % 2 ^ 32 := BitVec.toNat_ofNat p 32

theorem toNat_ptr_of_lt {p : ℕ} (h : p < 2 ^ 32) : (ptr p).toNat = p := by
  rw [toNat_ptr, Nat.mod_eq_of_lt h]

@[simp] theorem ptr_toNat (a : U32) : ptr a.toNat = a := by
  simp [ptr]

theorem ptr_add (p k : ℕ) : ptr p + BitVec.ofNat 32 k = ptr (p + k) := (BitVec.ofNat_add p k).symm

theorem ptr_add_ofNat (p k : ℕ) [k.AtLeastTwo] :
    ptr p + (OfNat.ofNat k : U32) = ptr (p + OfNat.ofNat k) := ptr_add p k

@[simp] theorem ptr_add_cast (p k : ℕ) : ptr p + (k : U32) = ptr (p + k) := ptr_add p k

theorem ptr_add_toNat (p : ℕ) (n : U32) : ptr p + n = ptr (p + n.toNat) := by
  rw [← ptr_add, BitVec.ofNat_toNat, BitVec.setWidth_eq]

/-- Positions less than `2 ^ 32` apart are told apart by their pointers. -/
theorem ptr_inj {p q : ℕ} (h1 : p < q + 2 ^ 32) (h2 : q < p + 2 ^ 32) : ptr p = ptr q ↔ p = q := by
  constructor
  · intro h
    have := congrArg BitVec.toNat h
    simp only [toNat_ptr] at this
    omega
  · rintro rfl; rfl

theorem ptr_ne_nullptr {p : ℕ} (h1 : 0 < p) (h2 : p < 2 ^ 32) : ptr p ≠ nullptr := by
  intro h
  have hz : (ptr p).toNat = 0 := by rw [h]; rfl
  rw [toNat_ptr] at hz
  omega

/-! ## Stores at positions -/

theorem byte_store8_ptr_of_ne {m : Ram} {p x : ℕ} {v : U8} (hne : x ≠ p)
    (h1 : x < p + 2 ^ 32) (h2 : p < x + 2 ^ 32) :
    (m.store8 (ptr p) v).byte (ptr x) = m.byte (ptr x) :=
  Memory.byte_store8_of_ne fun h => hne ((ptr_inj h1 h2).mp h)

theorem byte_store32_ptr_of_ne {m : Ram} {p x : ℕ} {v : U32} (hne : x < p ∨ p + 4 ≤ x)
    (h1 : x < p + 2 ^ 32) (h2 : p + 3 < x + 2 ^ 32) :
    (m.store32 (ptr p) v).byte (ptr x) = m.byte (ptr x) := by
  refine Memory.byte_store32_of_ne ?_
  intro i hi h
  rw [ptr_add_cast, ptr_inj (by omega) (by omega)] at h
  omega

theorem load32_store8_ptr_of_ne {m : Ram} {p q : ℕ} {v : U8} (hne : q + 4 ≤ p ∨ p < q)
    (h1 : q + 3 < p + 2 ^ 32) (h2 : p < q + 2 ^ 32) :
    (m.store8 (ptr p) v).load32 (ptr q) = m.load32 (ptr q) := by
  refine Memory.load32_congr ?_
  intro i hi
  rw [ptr_add_cast]
  exact byte_store8_ptr_of_ne (by omega) (by omega) (by omega)

theorem load32_store32_ptr_of_ne {m : Ram} {p q : ℕ} {v : U32} (hne : q + 4 ≤ p ∨ p + 4 ≤ q)
    (h1 : q + 3 < p + 2 ^ 32) (h2 : p + 3 < q + 2 ^ 32) :
    (m.store32 (ptr p) v).load32 (ptr q) = m.load32 (ptr q) := by
  refine Memory.load32_congr ?_
  intro i hi
  rw [ptr_add_cast]
  exact byte_store32_ptr_of_ne (by omega) (by omega) (by omega)

/-- Memories that agree on the bytes of a word agree on the word. -/
theorem load32_ptr_congr {m m' : Ram} {p : ℕ}
    (h : ∀ x, p ≤ x → x < p + 4 → m'.byte (ptr x) = m.byte (ptr x)) :
    m'.load32 (ptr p) = m.load32 (ptr p) := by
  refine Memory.load32_congr ?_
  intro i hi
  rw [ptr_add_cast]
  exact h (p + i) (by omega) (by omega)

/-- The addresses that a word store writes to. -/
theorem mem_written_store32_ptr {m : Ram} {p : ℕ} {v w : U32} :
    w ∈ (m.store32 (ptr p) v).written ↔ (∃ x, p ≤ x ∧ x < p + 4 ∧ w = ptr x) ∨ w ∈ m.written := by
  simp only [Memory.written_store32, ptr_add_cast, List.mem_cons]
  constructor
  · rintro (h | h | h | h | h)
    · exact Or.inl ⟨p + 3, by omega, by omega, h⟩
    · exact Or.inl ⟨p + 2, by omega, by omega, h⟩
    · exact Or.inl ⟨p + 1, by omega, by omega, h⟩
    · exact Or.inl ⟨p + 0, by omega, by omega, h⟩
    · exact Or.inr h
  · rintro (⟨x, h1, h2, rfl⟩ | h)
    · have hx : x = p + 3 ∨ x = p + 2 ∨ x = p + 1 ∨ x = p + 0 := by omega
      rcases hx with rfl | rfl | rfl | rfl <;> simp
    · exact Or.inr (Or.inr (Or.inr (Or.inr h)))

/-! ## `memset` -/

section Memset

variable {α : Type} [DecidableEq α] [Add α] [NatCast α]

/-- `memset` leaves every byte outside `dest[1], …, dest[count]` alone. -/
theorem byte_memset_of_ne {m : Memory α} {dest x : α} {val : U8} {count : ℕ}
    (h : ∀ i, 1 ≤ i → i ≤ count → x ≠ dest + ((i : ℕ) : α)) :
    (memset m dest val count).byte x = m.byte x := by
  induction count generalizing m with
  | zero => rfl
  | succ n ih =>
    rw [memset, ih fun i h1 h2 => h i h1 (by omega)]
    exact Memory.byte_store8_of_ne (h (n + 1) (by omega) le_rfl)

/-- `memset` keeps the bytes that already have the value it stores. -/
theorem byte_memset_of_eq {m : Memory α} {dest x : α} {val : U8} {count : ℕ}
    (h : m.byte x = val) : (memset m dest val count).byte x = val := by
  induction count generalizing m with
  | zero => exact h
  | succ n ih =>
    refine ih ?_
    rw [Memory.byte_store8]
    split_ifs
    · rfl
    · exact h

/-- `memset` fills the bytes `dest[1], …, dest[count]`. -/
theorem byte_memset_add (m : Memory α) (dest : α) (val : U8) {count i : ℕ} (h1 : 1 ≤ i)
    (h2 : i ≤ count) : (memset m dest val count).byte (dest + (i : α)) = val := by
  induction count generalizing m with
  | zero => omega
  | succ n ih =>
    rw [memset]
    rcases Nat.lt_or_ge n i with hi | hi
    · have hin : i = n + 1 := by omega
      subst hin
      exact byte_memset_of_eq (Memory.byte_store8_same ..)
    · exact ih _ hi

/-- The addresses that `memset` writes to. -/
theorem mem_written_memset {m : Memory α} {dest w : α} {val : U8} {count : ℕ} :
    w ∈ (memset m dest val count).written ↔
      (∃ i, 1 ≤ i ∧ i ≤ count ∧ w = dest + ((i : ℕ) : α)) ∨ w ∈ m.written := by
  induction count generalizing m with
  | zero =>
    constructor
    · exact Or.inr
    · rintro (⟨i, h1, h2, -⟩ | h)
      · omega
      · exact h
  | succ n ih =>
    rw [memset, ih, Memory.written_store8, List.mem_cons]
    constructor
    · rintro (⟨i, h1, h2, h3⟩ | h | h)
      · exact Or.inl ⟨i, h1, by omega, h3⟩
      · exact Or.inl ⟨n + 1, by omega, le_rfl, h⟩
      · exact Or.inr h
    · rintro (⟨i, h1, h2, h3⟩ | h)
      · rcases Nat.lt_or_ge i (n + 1) with hi | hi
        · exact Or.inl ⟨i, h1, by omega, h3⟩
        · exact Or.inr (Or.inl (by rw [h3, show i = n + 1 by omega]))
      · exact Or.inr (Or.inr h)

variable [ArrayAddress α] {m : Memory α} {dest : α} {val : U8} {count : ℕ}

/-- `memset` does not store to the first byte of its range. -/
theorem byte_memset_first (hcount : count < 2 ^ 32) :
    (memset m dest val count).byte (dest + ((0 : ℕ) : α)) = m.byte (dest + ((0 : ℕ) : α)) := by
  refine byte_memset_of_ne ?_
  intro i h1 h2 heq
  have := ArrayAddress.add_cast_inj dest 0 i (by omega) (by omega) heq
  omega

omit [DecidableEq α] in
/-- The byte behind the range of `memset` is outside of it. -/
theorem behind_range (hcount : count < 2 ^ 32) {i : ℕ} (hi : i < count) :
    dest + (count : α) ≠ dest + (i : α) := by
  intro heq
  have := ArrayAddress.add_cast_inj dest count i hcount (by omega) heq
  omega

/-- `memset` fills its range, and nothing else, exactly when the range is empty, or its first byte and the
    byte behind it already have the value. -/
theorem memset_fills_iff (m : Memory α) (dest : α) (val : U8) (count : U32) :
    m.Fills (memset m dest val count.toNat) dest count.toNat val ↔
      count = 0 ∨ m.byte (dest + ((0 : ℕ) : α)) = val ∧ m.byte (dest + (count.toNat : α)) = val := by
  have hcount := count.isLt
  constructor
  · rintro ⟨hin, hout⟩
    by_cases h0 : count.toNat = 0
    · exact Or.inl (BitVec.eq_of_toNat_eq h0)
    · have hlast := byte_memset_add m dest val (show 1 ≤ count.toNat by omega) le_rfl
      refine Or.inr ⟨?_, ?_⟩
      · rw [← byte_memset_first hcount]
        exact hin 0 (by omega)
      · rw [← hout _ fun i hi => behind_range hcount hi]
        exact hlast
  · rintro (rfl | ⟨hfirst, hlast⟩)
    · exact ⟨fun i hi => absurd hi (Nat.not_lt_zero i), fun x _ => rfl⟩
    · constructor
      · intro i hi
        rcases Nat.eq_zero_or_pos i with rfl | hpos
        · rw [byte_memset_first hcount]
          exact hfirst
        · exact byte_memset_add m dest val hpos hi.le
      · intro x hx
        by_cases hend : x = dest + (count.toNat : α)
        · rw [hend, hlast]
          exact byte_memset_of_eq hlast
        · refine byte_memset_of_ne ?_
          intro i h1 h2 heq
          rcases Nat.lt_or_ge i count.toNat with hi | hi
          · exact hx i hi heq
          · exact hend (by rw [heq, show i = count.toNat by omega])

end Memset

/-- Clearing a page table that is clear. -/
theorem memset_fills_cleared : Memory.Fills ({ byte := fun _ => 0 } : Ram)
    (memset { byte := fun _ => 0 } 0xC0400000 0 (4096 : U32).toNat) 0xC0400000 (4096 : U32).toNat 0 :=
  (memset_fills_iff _ _ 0 4096).mpr (Or.inr ⟨rfl, rfl⟩)

/-- The string `"123456789"`, three bytes of which are set to `'.'` from the third on: it stays. -/
theorem memset_misses_first : ¬ Memory.Fills ({ byte := fun a => 0x31 + a.setWidth 8 } : Ram)
    (memset { byte := fun a => 0x31 + a.setWidth 8 } 2 0x2E (3 : U32).toNat) 2 (3 : U32).toNat 0x2E := by
  intro h
  have hfirst := h.inside 0 (by decide)
  rw [byte_memset_first (by decide)] at hfirst
  exact absurd hfirst (by decide)

/-! ## `memcpy` -/

section Memcpy

variable {α : Type} [DecidableEq α] [Add α] [NatCast α]

theorem byte_memcpyFrom_of_ne {m : Memory α} {dest src x : α} {i left : ℕ}
    (h : ∀ k : ℕ, i ≤ k → k < i + left → x ≠ dest + (k : α)) :
    (memcpyFrom m dest src i left).byte x = m.byte x := by
  induction left generalizing m i with
  | zero => rfl
  | succ left ih =>
    rw [memcpyFrom, ih fun k h1 h2 => h k (by omega) (by omega)]
    exact Memory.byte_store8_of_ne (h i le_rfl (by omega))

/-- The loop of `memcpy` copies what is left, when source and destination do not overlap. -/
theorem byte_memcpyFrom [ArrayAddress α] {m : Memory α} {dest src : α} {i left k : ℕ}
    (hsize : i + left ≤ 2 ^ 32)
    (hdisj : ∀ a b : ℕ, a < i + left → b < i + left → src + (a : α) ≠ dest + (b : α))
    (h1 : i ≤ k) (h2 : k < i + left) :
    (memcpyFrom m dest src i left).byte (dest + (k : α)) = m.byte (src + (k : α)) := by
  induction left generalizing m i with
  | zero => omega
  | succ left ih =>
    rw [memcpyFrom]
    by_cases hk : k = i
    · subst hk
      rw [byte_memcpyFrom_of_ne, Memory.byte_store8_same]
      intro j hj1 hj2 heq
      have := ArrayAddress.add_cast_inj dest k j (by omega) (by omega) heq
      omega
    · rw [ih (by omega) (fun a b ha hb => hdisj a b (by omega) (by omega)) (by omega) (by omega)]
      exact Memory.byte_store8_of_ne (hdisj k i (by omega) (by omega))

/-- `memcpy` leaves every byte outside its destination alone. -/
theorem byte_memcpy_of_ne {m : Memory α} {dest src x : α} {size : ℕ}
    (h : ∀ k : ℕ, k < size → x ≠ dest + (k : α)) : (memcpy m dest src size).byte x = m.byte x :=
  byte_memcpyFrom_of_ne fun k _ hk => h k (by omega)

/-- `memcpy` copies the bytes, when source and destination do not overlap. -/
theorem byte_memcpy [ArrayAddress α] {m : Memory α} {dest src : α} {size k : ℕ} (hsize : size ≤ 2 ^ 32)
    (hdisj : ∀ a b : ℕ, a < size → b < size → src + (a : α) ≠ dest + (b : α)) (hk : k < size) :
    (memcpy m dest src size).byte (dest + (k : α)) = m.byte (src + (k : α)) :=
  byte_memcpyFrom (by omega) (fun a b ha hb => hdisj a b (by omega) (by omega)) (Nat.zero_le k) (by omega)

end Memcpy

/-- `memset` at a position, seen from a position outside the bytes it fills. -/
theorem byte_memset_ptr_of_ne {m : Ram} {p x : ℕ} {val : U8} {count : ℕ}
    (hne : x ≤ p ∨ p + count < x) (h1 : x < p + 2 ^ 32) (h2 : p + count < x + 2 ^ 32) :
    (memset m (ptr p) val count).byte (ptr x) = m.byte (ptr x) := by
  refine byte_memset_of_ne ?_
  intro i hi1 hi2 h
  rw [ptr_add_cast, ptr_inj (by omega) (by omega)] at h
  omega

/-- `memset` at a position, seen from a position that it fills. -/
theorem byte_memset_ptr {m : Ram} {p x : ℕ} {val : U8} {count : ℕ} (h1 : p < x)
    (h2 : x ≤ p + count) : (memset m (ptr p) val count).byte (ptr x) = val := by
  have h2' : x - p ≤ count := by omega
  have h := byte_memset_add m (ptr p) val (i := x - p) (by omega) h2'
  rwa [ptr_add_cast, show p + (x - p) = x by omega] at h

theorem load32_memset_ptr_of_ne {m : Ram} {p q : ℕ} {val : U8} {count : ℕ}
    (hne : q + 3 ≤ p ∨ p + count < q) (h1 : q + 3 < p + 2 ^ 32) (h2 : p + count < q + 2 ^ 32) :
    (memset m (ptr p) val count).load32 (ptr q) = m.load32 (ptr q) :=
  load32_ptr_congr fun x hx1 hx2 => byte_memset_ptr_of_ne (by omega) (by omega) (by omega)

end Pros
