import Pros.MM.PMMMachine
import Pros.MM.Proofs.PMMSearchProofs
import Pros.Lib.Proofs.RamProofs

/-!
# The search in machine integers is the plain scan

As long as no index that is tested is negative, the search in the integers of the source does what the one over
numbers does (`firstFree_machine`), and that is what a scan bit by bit finds (`search_scans_plainly`).
-/

namespace Pros

namespace PMM

variable {map : Memory ℕ} {s : PMM} {b c f n k i free : ℕ} {size : U32}

/-! ## One bit -/

theorem toNat_ofNat_of_lt (h : b < 2 ^ 32) : (BitVec.ofNat 32 b).toNat = b := toNat_ptr_of_lt h

theorem msb_ofNat_of_lt (h : b < 2 ^ 31) : (BitVec.ofNat 32 b).msb = false := by
  rw [BitVec.msb_eq_decide, toNat_ofNat_of_lt (by omega)]
  exact decide_eq_false (by omega)

/-- Signed division and remainder of an index that is not negative. -/
theorem testBit_machine (map : Memory ℕ) (h : b < 2 ^ 31) :
    Machine.testBit map (BitVec.ofNat 32 b) = some (testBit map b) := by
  have hmsb := msb_ofNat_of_lt h
  have hnonneg : (BitVec.ofNat 32 b).slt 0 = false := by
    rw [show (0 : I32) = 0#32 from rfl, BitVec.slt_zero_eq_msb, hmsb]
  have hdiv : ((BitVec.ofNat 32 b).sdiv 32).toNat = b / 32 := by
    rw [BitVec.sdiv_eq, hmsb, show (32 : U32).msb = false by decide]
    simp only [BitVec.udiv_eq, BitVec.toNat_udiv]
    rw [toNat_ofNat_of_lt (by omega)]
    rfl
  have hrem : ((BitVec.ofNat 32 b).srem 32).toNat = b % 32 := by
    rw [BitVec.srem_eq, hmsb, show (32 : U32).msb = false by decide]
    simp only [BitVec.toNat_umod]
    rw [toNat_ofNat_of_lt (by omega)]
    rfl
  rw [Machine.testBit, hnonneg, hdiv, hrem]
  rfl

/-! ## The count -/

theorem ofNat_succ (k : ℕ) : BitVec.ofNat 32 (k + 1) = BitVec.ofNat 32 k + 1 := BitVec.ofNat_add k 1

/-- The counters do not wrap, as they stay below `size`. -/
theorem countFree_machine (map : Memory ℕ) (hn : n < 2 ^ 32) (hc : c + n ≤ 2 ^ 31) {left : ℕ} (hleft : left ≤ n)
    (hfree : free ≤ n - left) :
    Machine.countFree map (BitVec.ofNat 32 c) (BitVec.ofNat 32 n) (BitVec.ofNat 32 (n - left))
      (BitVec.ofNat 32 free) = some (countFree map c n left free) := by
  induction left generalizing free with
  | zero =>
    rw [Machine.countFree, dif_neg (by rw [Nat.sub_zero]; exact BitVec.lt_irrefl _)]
    rfl
  | succ left ih =>
    have hlt : BitVec.ofNat 32 (n - (left + 1)) < BitVec.ofNat 32 n := by
      rw [BitVec.lt_def, toNat_ofNat_of_lt hn, toNat_ofNat_of_lt (by omega)]
      omega
    have hbit := testBit_machine map (b := c + (n - (left + 1))) (by omega)
    rw [BitVec.ofNat_add] at hbit
    have hnext : BitVec.ofNat 32 (n - (left + 1)) + 1 = BitVec.ofNat 32 (n - left) := by
      rw [← ofNat_succ, show n - (left + 1) + 1 = n - left by omega]
    have hcount : (if !testBit map (c + (n - (left + 1))) then BitVec.ofNat 32 free + 1 else BitVec.ofNat 32 free) =
        BitVec.ofNat 32 (if !testBit map (c + (n - (left + 1))) then free + 1 else free) := by
      split_ifs
      · exact (ofNat_succ free).symm
      · rfl
    rw [Machine.countFree, dif_pos hlt, hbit]
    simp only [Option.bind_eq_bind, Option.bind_some, hcount, hnext]
    rw [countFree]
    have hle : (if !testBit map (c + (n - (left + 1))) then free + 1 else free) ≤ n - left := by
      split_ifs <;> omega
    generalize (if !testBit map (c + (n - (left + 1))) then free + 1 else free) = free' at hle ⊢
    have hend : BitVec.ofNat 32 free' = BitVec.ofNat 32 n ↔ free' = n := ptr_inj (by omega) (by omega)
    by_cases heq : free' = n
    · rw [if_pos (hend.mpr heq), decide_eq_true heq, Bool.true_or]
      rfl
    · rw [if_neg (mt hend.mp heq), ih (by omega) hle, decide_eq_false heq, Bool.false_or]

/-! ## The search -/

/-- A round over the bits of a word. -/
theorem searchBit_machine (hn : n < 2 ^ 32) {i j : ℕ}
    (hfit : map.bit (i * 32 + j) = false → i * 32 + j + n ≤ 2 ^ 31) (hi : i < 2 ^ 32) (hj : j < 32) :
    (if word map (BitVec.ofNat 32 i).toNat &&& 1#32 <<< j = 0 then do
        let currentBit := BitVec.ofNat 32 i * 32 + BitVec.ofNat 32 j
        let found ← Machine.countFree map currentBit (BitVec.ofNat 32 n) 0 0
        return if found then some currentBit else none
      else return none : Option (Option I32)) =
      some ((if word map i &&& 1#32 <<< j = 0 then
        if countFree map (i * 32 + j) n n 0 then some (i * 32 + j) else none else none).map (BitVec.ofNat 32)) := by
  have hbit : BitVec.ofNat 32 i * 32 + BitVec.ofNat 32 j = BitVec.ofNat 32 (i * 32 + j) := by
    rw [BitVec.ofNat_add, BitVec.ofNat_mul]
    rfl
  rw [toNat_ofNat_of_lt hi]
  by_cases hclear : word map i &&& 1#32 <<< j = 0
  · have hfits := hfit (by rw [← bit_word hj]; exact (and_one_shiftLeft_eq_zero hj).mp hclear)
    have hcount := countFree_machine map hn hfits le_rfl (Nat.zero_le (n - n))
    rw [Nat.sub_self] at hcount
    rw [if_pos hclear, if_pos hclear, hbit]
    simp only [Option.bind_eq_bind]
    rw [show (0 : U32) = BitVec.ofNat 32 0 from rfl, hcount, Option.bind_some]
    split_ifs <;> rfl
  · rw [if_neg hclear, if_neg hclear]
    rfl

theorem searchWord_machine (hn0 : 0 < n) (hn : n < 2 ^ 32) (hi : i < 2 ^ 32)
    (hfit : ∀ j < 32, (∀ k < j, ¬ FreeRun map (i * 32 + k) n) → map.bit (i * 32 + j) = false →
      i * 32 + j + n ≤ 2 ^ 31) :
    Machine.searchWord map (BitVec.ofNat 32 n) (BitVec.ofNat 32 i) =
      some ((searchWord map n i).map (BitVec.ofNat 32)) := by
  rw [Machine.searchWord, searchWord, List.map_findSome?]
  refine Scan.findSomeM_range fun j hj hbefore => searchBit_machine hn (hfit j hj fun k hk => ?_) hi hj
  exact (searchBit_none hn0 (by omega)).mp (Option.map_eq_none_iff.mp (hbefore k hk))

/-- Every clear bit that the search comes to has its whole run tested, so no index of the run is negative. -/
theorem run_fits (hsize : size ≠ 0) (h : ∀ b ∈ (searchTested s size).2, b < 2 ^ 31) (hc : c < searchBound s)
    (hbefore : ∀ g < c, ¬ FreeRun s.memoryMap g size.toNat) (hbit : s.memoryMap.bit c = false) :
    c + size.toNat ≤ 2 ^ 31 := by
  have hn := toNat_pos_of_ne_zero hsize
  have hlast := h (c + size.toNat - 1) ((mem_searchTested hsize).mpr
    ⟨c, hc, word_ne_of_bit hbit, hbefore, Or.inr ⟨hbit, by omega, by omega⟩⟩)
  omega

/-- The search in machine integers does what the one over numbers does. -/
theorem firstFree_machine (h : ∀ b ∈ (searchTested s size).2, b < 2 ^ 31) :
    Machine.firstFreePhysicalPagesBits s size =
      some (((s.firstFreePhysicalPagesBits size).map (BitVec.ofNat 32)).getD (-1)) := by
  rw [Machine.firstFreePhysicalPagesBits, firstFreePhysicalPagesBits]
  by_cases hsize : size = 0
  · rw [if_pos hsize, if_pos hsize]
    rfl
  · have hn := toNat_pos_of_ne_zero hsize
    have hround : ∀ i < (s.memorySize / 32 / 4096).toNat, (∀ k < i,
          (if word s.memoryMap k ≠ 0xFFFFFFFF then searchWord s.memoryMap size.toNat k else none).map
            (BitVec.ofNat 32) = none) →
        (if word s.memoryMap i ≠ 0xFFFFFFFF then Machine.searchWord s.memoryMap size (BitVec.ofNat 32 i)
          else return none) =
        some ((if word s.memoryMap i ≠ 0xFFFFFFFF then searchWord s.memoryMap size.toNat i else none).map
          (BitVec.ofNat 32)) := by
      intro i hi hbefore
      have hword : ∀ k < i, ∀ j < 32, ¬ FreeRun s.memoryMap (k * 32 + j) size.toNat := fun k hk =>
        (searchWord_none hn).mp (by rw [← searchWord_skip hn]; exact Option.map_eq_none_iff.mp (hbefore k hk))
      split_ifs with hw
      · have hofNat : BitVec.ofNat 32 size.toNat = size := by simp
        rw [← searchWord_machine hn size.isLt (lt_trans hi (BitVec.isLt _)), hofNat]
        intro j hj hin hbit
        refine run_fits hsize h (by unfold searchBound; omega) (fun g hg => ?_) hbit
        rcases Nat.lt_or_ge g (i * 32) with hlt | hge
        · have := hword (g / 32) (by omega) (g % 32) (by omega)
          rwa [show g / 32 * 32 + g % 32 = g by omega] at this
        · have := hin (g - i * 32) (by omega)
          rwa [show i * 32 + (g - i * 32) = g by omega] at this
      · rfl
    rw [if_neg hsize, if_neg hsize, Scan.findSomeM_range hround, List.map_findSome?]
    rfl

/-! ## The plain scan -/

theorem all_clear_iff {f : ℕ} :
    ((List.range n).all fun k => !map.bit (f + k)) = true ↔ FreeRun map f n := by
  simp only [List.all_eq_true, List.mem_range, Bool.not_eq_true']
  constructor
  · intro h b h1 h2
    have := h (b - f) (by omega)
    rwa [show f + (b - f) = b by omega] at this
  · intro h k hk
    exact h (f + k) (by omega) (by omega)

theorem plainScan_iff {bound f : ℕ} : plainScan map n bound = some f ↔ FirstFree map bound n f := by
  rw [plainScan, List.find?_range_eq_some]
  unfold FirstFree
  rw [all_clear_iff, List.mem_range]
  constructor
  · rintro ⟨hrun, hlt, hbefore⟩
    refine ⟨hlt, hrun, fun g hg hfree => ?_⟩
    have hg' := hbefore g hg
    rw [all_clear_iff.mpr hfree] at hg'
    cases hg'
  · rintro ⟨hlt, hrun, hbefore⟩
    refine ⟨hrun, hlt, fun g hg => ?_⟩
    rw [Bool.not_eq_true', Bool.eq_false_iff]
    exact mt all_clear_iff.mp (hbefore g hg)

theorem searchBound_eq (s : PMM) : searchBound s = 32 * (s.memorySize.toNat / 131072) := by
  rw [searchBound, BitVec.toNat_udiv, BitVec.toNat_udiv, Nat.div_div_eq_div_mul]
  rfl

/-- Both look for the first free run. -/
theorem firstFree_eq_plainScan (hsize : size ≠ 0) :
    s.firstFreePhysicalPagesBits size = plainScan s.memoryMap size.toNat (searchBound s) := by
  apply Option.ext
  intro f
  rw [firstFree_iff hsize, plainScan_iff]

/-- The search in machine integers, skipping full words and counting runs, is the scan bit by bit. -/
theorem search_scans_plainly (s : PMM) (size : U32) (h : ∀ b ∈ (searchTested s size).2, b < 2 ^ 31) :
    ∃ frame, Machine.firstFreePhysicalPagesBits s size = some frame ∧ ScansPlainly s size frame := by
  refine ⟨_, firstFree_machine h, ?_⟩
  have hzero : size = 0 → s.firstFreePhysicalPagesBits size = none := fun h0 => if_pos h0
  constructor
  · rw [← searchBound_eq]
    split_ifs with hsize
    · rw [hzero hsize]
      rfl
    · rw [firstFree_eq_plainScan hsize]
  · rw [← searchBound_eq]
    intro hnone
    by_cases hsize : size = 0
    · rw [hzero hsize]
      rfl
    · rw [(firstFree_none hsize).mpr (hnone.resolve_left hsize)]
      rfl
  · rw [← searchBound_eq]
    intro hsize f hf
    rw [(firstFree_iff hsize).mpr hf]
    have hlt := hf.1
    rw [searchBound_eq] at hlt
    have hmem := s.memorySize.isLt
    have hmsb := msb_ofNat_of_lt (b := f) (by omega)
    rw [Option.map_some, Option.getD_some, BitVec.toInt_eq_toNat_of_msb hmsb, toNat_ofNat_of_lt (by omega)]

/-- On a map with 16 MiB of free blocks a run of 64 blocks is found at once. -/
theorem search_scans_plainly_allFree : ∃ frame,
    Machine.firstFreePhysicalPagesBits ⟨0x1000000, 0, 0x1000, { byte := fun _ => 0 }⟩ 64 = some frame ∧
      ScansPlainly ⟨0x1000000, 0, 0x1000, { byte := fun _ => 0 }⟩ 64 frame := by
  have hfree : ∀ f n, FreeRun { byte := fun _ => 0 } f n := fun f n b _ _ => BitVec.getLsbD_zero
  refine search_scans_plainly _ 64 fun b hb => ?_
  obtain ⟨c, -, -, hbefore, hb⟩ := (mem_searchTested (by decide)).mp hb
  have hc : c = 0 := by
    by_contra hne
    exact hbefore 0 (Nat.pos_of_ne_zero hne) (hfree _ _)
  have hsize : (64 : U32).toNat = 64 := rfl
  omega

end PMM

end Pros
