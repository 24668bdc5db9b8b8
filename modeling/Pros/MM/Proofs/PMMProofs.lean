import Pros.MM.PMMClient
import Pros.Foundations.Scan
import Pros.Lib.Proofs.RamProofs
import Mathlib.Tactic.Ring
import Mathlib.Data.BitVec

/-!
# What the functions of the physical memory manager do to the bitmap

One lemma per function, in terms of the bits of the map. The allocator is a first-fit search: it returns
the first clear bit below its bound from which on the run asked for is clear (`FirstFree`).
-/

namespace Pros

open PMM

namespace PMM

variable {map : Memory ℕ} {s : PMM} {b x f n : ℕ} {size : U32}

/-! ## Bits -/

theorem getLsbD_one_shiftLeft {i j : ℕ} (hj : j < 32) :
    (1#32 <<< i).getLsbD j = decide (j = i) := by
  rw [BitVec.getLsbD_shiftLeft, BitVec.getLsbD_one, decide_eq_true hj]
  rcases Nat.lt_trichotomy j i with h | h | h
  · simp [h, Nat.ne_of_lt h]
  · subst h; simp
  · have hne : j ≠ i := by omega
    have hsub : j - i ≠ 0 := by omega
    simp [hne, hsub]

/-- A word has a bit clear if masking it leaves nothing. -/
theorem and_one_shiftLeft_eq_zero {w : U32} {j : ℕ} (hj : j < 32) :
    w &&& 1#32 <<< j = 0 ↔ w.getLsbD j = false := by
  constructor
  · intro h
    have hbit := congrArg (fun v : U32 => v.getLsbD j) h
    simpa [BitVec.getLsbD_and, getLsbD_one_shiftLeft hj] using hbit
  · intro h
    apply BitVec.eq_of_getLsbD_eq
    intro i hi
    rw [BitVec.getLsbD_and, getLsbD_one_shiftLeft hi]
    by_cases hij : i = j
    · subst hij; simp [h]
    · simp [hij]

theorem testBit_eq : testBit map b = map.bit b := by
  rw [testBit, word, ← Memory.getLsbD_load32_word]
  cases h : (map.load32 (4 * (b / 32))).getLsbD (b % 32) with
  | false => simpa using (and_one_shiftLeft_eq_zero (by omega)).mpr h
  | true =>
    have hne := (and_one_shiftLeft_eq_zero (w := map.load32 (4 * (b / 32)))
      (show b % 32 < 32 by omega)).not.mpr (by rw [h]; decide)
    simpa using hne

theorem bit_setBit : (setBit map b).bit x = if x = b then true else map.bit x := by
  rw [setBit, word, Memory.bit_store32_word]
  split_ifs with hw h h
  · subst h
    rw [BitVec.getLsbD_or, getLsbD_one_shiftLeft (by omega)]; simp
  · have hne : x % 32 ≠ b % 32 := by omega
    rw [BitVec.getLsbD_or, getLsbD_one_shiftLeft (by omega), decide_eq_false hne, ← hw,
      Memory.getLsbD_load32_word, Bool.or_false]
  · omega
  · rfl

theorem bit_unsetBit : (unsetBit map b).bit x = if x = b then false else map.bit x := by
  rw [unsetBit, word, Memory.bit_store32_word]
  split_ifs with hw h h
  · subst h
    rw [BitVec.getLsbD_and, BitVec.getLsbD_not, getLsbD_one_shiftLeft (by omega)]; simp
  · have hne : x % 32 ≠ b % 32 := by omega
    have hlt : x % 32 < 32 := by omega
    rw [BitVec.getLsbD_and, BitVec.getLsbD_not, getLsbD_one_shiftLeft hlt, decide_eq_false hne, ← hw,
      Memory.getLsbD_load32_word, decide_eq_true hlt, Bool.not_false, Bool.and_true, Bool.and_true]
  · omega
  · rfl

/-- The loop of `getFreePhysicalPage` sets the bits of its run. -/
theorem bit_setBits :
    (setBits map f n).bit x = if f ≤ x ∧ x < f + n then true else map.bit x := by
  induction n with
  | zero => rw [if_neg (by omega)]; rfl
  | succ n ih =>
    have hstep : setBits map f (n + 1) = setBit (setBits map f n) (f + n) := by
      simp only [setBits, List.range_succ, List.foldl_append, List.foldl_cons, List.foldl_nil]
    rw [hstep, bit_setBit, ih]
    split_ifs <;> first | rfl | omega

/-- The loop of `freePage` clears the bits of its run. -/
theorem bit_unsetBits :
    (unsetBits map f n).bit x = if f ≤ x ∧ x < f + n then false else map.bit x := by
  induction n with
  | zero => rw [if_neg (by omega)]; rfl
  | succ n ih =>
    have hstep : unsetBits map f (n + 1) = unsetBit (unsetBits map f n) (f + n) := by
      simp only [unsetBits, List.range_succ, List.foldl_append, List.foldl_cons, List.foldl_nil]
    rw [hstep, bit_unsetBit, ih]
    split_ifs <;> first | rfl | omega

/-! ## Regions -/

theorem bit_useBlocks : (useBlocks s b n).memoryMap.bit x =
    if b ≤ x ∧ x < b + n then true else s.memoryMap.bit x := by
  induction n generalizing s b with
  | zero => rw [if_neg (by omega)]; rfl
  | succ n ih =>
    rw [useBlocks, ih]
    simp only [bit_setBit]
    split_ifs <;> first | rfl | omega

theorem bit_freeBlocks : (freeBlocks s b n).memoryMap.bit x =
    if b ≤ x ∧ x < b + n then false else s.memoryMap.bit x := by
  induction n generalizing s b with
  | zero => rw [if_neg (by omega)]; rfl
  | succ n ih =>
    rw [freeBlocks, ih]
    simp only [bit_unsetBit]
    split_ifs <;> first | rfl | omega

theorem counts_useBlocks : (useBlocks s b n).memorySize = s.memorySize ∧
    (useBlocks s b n).maxBlocks = s.maxBlocks ∧
    (useBlocks s b n).usedBlocks = s.usedBlocks - BitVec.ofNat 32 n := by
  induction n generalizing s b with
  | zero => exact ⟨rfl, rfl, (BitVec.sub_zero _).symm⟩
  | succ n ih =>
    rw [useBlocks]
    obtain ⟨h1, h2, h3⟩ := @ih
      { s with memoryMap := setBit s.memoryMap b, usedBlocks := s.usedBlocks - 1 } (b + 1)
    refine ⟨h1, h2, h3.trans ?_⟩
    show s.usedBlocks - 1 - BitVec.ofNat 32 n = s.usedBlocks - BitVec.ofNat 32 (n + 1)
    rw [BitVec.ofNat_add, show BitVec.ofNat 32 1 = 1 from rfl]
    ring

theorem counts_freeBlocks : (freeBlocks s b n).memorySize = s.memorySize ∧
    (freeBlocks s b n).maxBlocks = s.maxBlocks ∧
    (freeBlocks s b n).usedBlocks = s.usedBlocks + BitVec.ofNat 32 n := by
  induction n generalizing s b with
  | zero => exact ⟨rfl, rfl, (BitVec.add_zero _).symm⟩
  | succ n ih =>
    rw [freeBlocks]
    obtain ⟨h1, h2, h3⟩ := @ih
      { s with memoryMap := unsetBit s.memoryMap b, usedBlocks := s.usedBlocks + 1 } (b + 1)
    refine ⟨h1, h2, h3.trans ?_⟩
    show s.usedBlocks + 1 + BitVec.ofNat 32 n = s.usedBlocks + BitVec.ofNat 32 (n + 1)
    rw [BitVec.ofNat_add, show BitVec.ofNat 32 1 = 1 from rfl]
    ring

/-! ## The search -/

theorem countFree_iff {left free : ℕ} (hleft : left ≤ n) (hfree : free ≤ n - left) :
    countFree map b n left free = true ↔
      0 < left ∧ free = n - left ∧ FreeRun map (b + (n - left)) left := by
  induction left generalizing free with
  | zero => simp [countFree]
  | succ left ih =>
    have hk : n - (left + 1) + 1 = n - left := by omega
    rw [countFree]
    simp only [testBit_eq]
    cases hbit : map.bit (b + (n - (left + 1))) with
    | true =>
      have hne : ¬ free = n - left := by omega
      simp only [Bool.not_true, Bool.false_eq_true, if_false, Bool.or_eq_true, decide_eq_true_eq]
      rw [ih (by omega) (by omega)]
      constructor
      · rintro (h | ⟨-, h, -⟩) <;> omega
      · rintro ⟨-, -, h⟩
        have hclear := h _ le_rfl (by omega)
        rw [hbit] at hclear
        cases hclear
    | false =>
      simp only [Bool.not_false, if_true, Bool.or_eq_true, decide_eq_true_eq]
      rw [ih (by omega) (by omega)]
      have hrun : FreeRun map (b + (n - (left + 1))) (left + 1) ↔ FreeRun map (b + (n - left)) left := by
        constructor
        · intro h x h1 h2
          exact h x (by omega) (by omega)
        · intro h x h1 h2
          rcases Nat.eq_or_lt_of_le h1 with heq | hlt
          · rw [← heq]; exact hbit
          · exact h x (by omega) (by omega)
      rw [hrun]
      constructor
      · rintro (h | ⟨h1, h2, h3⟩)
        · refine ⟨by omega, by omega, ?_⟩
          intro x h1 h2
          omega
        · exact ⟨by omega, by omega, h3⟩
      · rintro ⟨h1, h2, h3⟩
        by_cases hl : left = 0
        · exact Or.inl (by omega)
        · exact Or.inr ⟨by omega, by omega, h3⟩

theorem countFree_all (hn : 0 < n) : countFree map b n n 0 = true ↔ FreeRun map b n := by
  rw [countFree_iff le_rfl (by omega), Nat.sub_self, Nat.add_zero]
  exact ⟨fun h => h.2.2, fun h => ⟨hn, rfl, h⟩⟩

theorem FreeRun.bit (h : FreeRun map b n) (hn : 0 < n) : map.bit b = false := h b le_rfl (by omega)

theorem bit_word {i j : ℕ} (hj : j < 32) : (word map i).getLsbD j = map.bit (i * 32 + j) := by
  have h := Memory.getLsbD_load32_word map (i * 32 + j)
  rwa [show (i * 32 + j) / 32 = i by omega, show (i * 32 + j) % 32 = j by omega] at h

/-- One round of the scan of a word. -/
theorem searchBit_iff {i j : ℕ} (hn : 0 < n) (hj : j < 32) :
    (if word map i &&& 1#32 <<< j = 0 then
      if countFree map (i * 32 + j) n n 0 then some (i * 32 + j) else none else none) = some f ↔
      f = i * 32 + j ∧ FreeRun map f n := by
  simp only [and_one_shiftLeft_eq_zero hj, bit_word hj]
  constructor
  · intro h
    split_ifs at h with h1 h2
    obtain rfl := Option.some.inj h
    exact ⟨rfl, (countFree_all hn).mp h2⟩
  · rintro ⟨rfl, hrun⟩
    rw [if_pos (hrun.bit hn), if_pos ((countFree_all hn).mpr hrun)]

theorem searchBit_none {i j : ℕ} (hn : 0 < n) (hj : j < 32) :
    (if word map i &&& 1#32 <<< j = 0 then
      if countFree map (i * 32 + j) n n 0 then some (i * 32 + j) else none else none) = none ↔
      ¬ FreeRun map (i * 32 + j) n := by
  rw [Option.eq_none_iff_forall_ne_some]
  constructor
  · intro h hrun
    exact h _ ((searchBit_iff hn hj).mpr ⟨rfl, hrun⟩)
  · intro h f hf
    obtain ⟨rfl, hrun⟩ := (searchBit_iff hn hj).mp hf
    exact h hrun

/-- The scan of a word finds the first of its bits at which a free run begins. -/
theorem searchWord_iff {i : ℕ} (hn : 0 < n) :
    searchWord map n i = some f ↔
      ∃ j < 32, f = i * 32 + j ∧ FreeRun map f n ∧ ∀ k < j, ¬ FreeRun map (i * 32 + k) n := by
  unfold searchWord
  rw [Scan.findSome_range]
  constructor
  · rintro ⟨j, hj, h1, h2⟩
    obtain ⟨rfl, hrun⟩ := (searchBit_iff hn hj).mp h1
    exact ⟨j, hj, rfl, hrun, fun k hk => (searchBit_none hn (by omega)).mp (h2 k hk)⟩
  · rintro ⟨j, hj, rfl, hrun, h2⟩
    exact ⟨j, hj, (searchBit_iff hn hj).mpr ⟨rfl, hrun⟩, fun k hk =>
      (searchBit_none hn (by omega)).mpr (h2 k hk)⟩

theorem searchWord_none {i : ℕ} (hn : 0 < n) :
    searchWord map n i = none ↔ ∀ j < 32, ¬ FreeRun map (i * 32 + j) n := by
  unfold searchWord
  rw [Scan.findSome_range_none]
  exact forall₂_congr fun j hj => searchBit_none hn hj

/-- A word with no clear bit is skipped; scanning it would find nothing. -/
theorem searchWord_skip {i : ℕ} (hn : 0 < n) :
    (if word map i ≠ 0xFFFFFFFF then searchWord map n i else none) = searchWord map n i := by
  split_ifs with hw
  · rfl
  · symm
    rw [not_not] at hw
    rw [searchWord_none hn]
    intro j hj hrun
    have hall : ∀ j < 32, (0xFFFFFFFF : U32).getLsbD j = true := by decide
    have hbit := hrun.bit hn
    rw [← bit_word hj, hw, hall j hj] at hbit
    cases hbit

theorem toNat_pos_of_ne_zero (hsize : size ≠ 0) : 0 < size.toNat := by
  rcases Nat.eq_zero_or_pos size.toNat with h | h
  · exact absurd (BitVec.eq_of_toNat_eq h) hsize
  · exact h

/-- `firstFreePhysicalPagesBits` is a first-fit search. -/
theorem firstFree_iff (hsize : size ≠ 0) : s.firstFreePhysicalPagesBits size = some f ↔
    FirstFree s.memoryMap (searchBound s) size.toNat f := by
  have hn := toNat_pos_of_ne_zero hsize
  rw [firstFreePhysicalPagesBits, if_neg hsize]
  simp only [searchWord_skip hn]
  rw [Scan.findSome_range]
  unfold FirstFree searchBound
  constructor
  · rintro ⟨i, hi, h1, h2⟩
    obtain ⟨j, hj, rfl, hrun, h3⟩ := (searchWord_iff hn).mp h1
    refine ⟨by omega, hrun, fun g hg hrun' => ?_⟩
    rcases Nat.lt_or_ge g (i * 32) with hlt | hge
    · refine (searchWord_none hn).mp (h2 (g / 32) (by omega)) (g % 32) (by omega) ?_
      rwa [show g / 32 * 32 + g % 32 = g by omega]
    · refine h3 (g - i * 32) (by omega) ?_
      rwa [show i * 32 + (g - i * 32) = g by omega]
  · rintro ⟨hlt, hrun, hfirst⟩
    refine ⟨f / 32, by omega, ?_, fun i hi => ?_⟩
    · exact (searchWord_iff hn).mpr ⟨f % 32, by omega, by omega, hrun, fun k hk => hfirst _ (by omega)⟩
    · exact (searchWord_none hn).mpr fun j hj => hfirst _ (by omega)

/-- Nothing is found if there is no free run that begins below the bound. -/
theorem firstFree_none (hsize : size ≠ 0) : s.firstFreePhysicalPagesBits size = none ↔
    ∀ f < searchBound s, ¬ FreeRun s.memoryMap f size.toNat := by
  have hn := toNat_pos_of_ne_zero hsize
  rw [firstFreePhysicalPagesBits, if_neg hsize]
  simp only [searchWord_skip hn]
  rw [Scan.findSome_range_none]
  simp only [searchWord_none hn]
  unfold searchBound
  constructor
  · intro h f hf hrun
    refine h (f / 32) (by omega) (f % 32) (by omega) ?_
    rwa [show f / 32 * 32 + f % 32 = f by omega]
  · intro h i hi j hj
    exact h _ (by omega)

end PMM

end Pros
