import Pros.MM.PMMSearch
import Pros.MM.Proofs.PMMProofs

/-!
# When the search agrees with the number of blocks

The bits that the search tests are those of the words it scans, and the whole run wherever a clear bit is found.
From this and the first-fit property follows when it finds the first free run of the map.
-/

namespace Pros

namespace PMM

variable {map : Memory ℕ} {s : PMM} {b c f n x : ℕ} {size : U32}

/-! ## The bits that are tested -/

/-- One round of the count: the bit at `k` is counted if it is clear. -/
theorem countFreeTested_succ (map : Memory ℕ) (b n left free : ℕ) : ∃ free', free ≤ free' ∧ free' ≤ free + 1 ∧
    countFree map b n (left + 1) free = (decide (free' = n) || countFree map b n left free') ∧
    countFreeTested map b n (left + 1) free =
      if free' = n then (true, [b + (n - (left + 1))])
      else ((countFreeTested map b n left free').1,
        (b + (n - (left + 1))) :: (countFreeTested map b n left free').2) := by
  refine ⟨if !testBit map (b + (n - (left + 1))) then free + 1 else free, ?_, ?_, rfl, rfl⟩ <;>
    split_ifs <;> omega

theorem countFreeTested_fst (left free : ℕ) :
    (countFreeTested map b n left free).1 = countFree map b n left free := by
  induction left generalizing free with
  | zero => rfl
  | succ left ih =>
    obtain ⟨free', -, -, h1, h2⟩ := countFreeTested_succ map b n left free
    rw [h1, h2]
    split_ifs with heq
    · simp [heq]
    · simp [heq, ih]

/-- The count tests every bit of the run. -/
theorem mem_countFreeTested {left free : ℕ} (hleft : left ≤ n) (hfree : free ≤ n - left) :
    x ∈ (countFreeTested map b n left free).2 ↔ b + (n - left) ≤ x ∧ x < b + n := by
  induction left generalizing free with
  | zero =>
    refine ⟨fun h => absurd h List.not_mem_nil, ?_⟩
    omega
  | succ left ih =>
    obtain ⟨free', -, hle, -, heq⟩ := countFreeTested_succ map b n left free
    rw [heq]
    split_ifs with hend
    · -- the count can only be complete in the last round
      rw [List.mem_singleton]
      omega
    · rw [List.mem_cons, ih (by omega) (by omega)]
      omega

theorem mem_countFreeTested_all : x ∈ (countFreeTested map b n n 0).2 ↔ b ≤ x ∧ x < b + n := by
  rw [mem_countFreeTested le_rfl (Nat.zero_le _), Nat.sub_self, Nat.add_zero]

theorem searchBitTested_fst (i j : ℕ) : (searchBitTested map n i j).1 =
    if word map i &&& 1#32 <<< j = 0 then
      if countFree map (i * 32 + j) n n 0 then some (i * 32 + j) else none else none := by
  rw [searchBitTested, ← countFreeTested_fst]
  exact apply_ite Prod.fst _ _ _

theorem mem_searchBitTested {i j : ℕ} (hj : j < 32) : x ∈ (searchBitTested map n i j).2 ↔
    x = i * 32 + j ∨ map.bit (i * 32 + j) = false ∧ i * 32 + j ≤ x ∧ x < i * 32 + j + n := by
  rw [searchBitTested, ← bit_word hj, ← and_one_shiftLeft_eq_zero hj]
  by_cases hbit : word map i &&& 1#32 <<< j = 0
  · rw [if_pos hbit]
    exact List.mem_cons.trans (or_congr_right (mem_countFreeTested_all.trans (and_iff_right hbit).symm))
  · rw [if_neg hbit, List.mem_singleton]
    exact (or_iff_left fun h => hbit h.1).symm

theorem searchWordTested_fst (i : ℕ) : (searchWordTested map n i).1 = searchWord map n i := by
  rw [searchWordTested, Scan.traced_fst, searchWord]
  simp only [searchBitTested_fst]

/-- The bits tested in a word, up to the first one at which a free run begins. -/
theorem mem_searchWordTested {i : ℕ} (hn : 0 < n) : x ∈ (searchWordTested map n i).2 ↔
    ∃ j < 32, (∀ k < j, ¬ FreeRun map (i * 32 + k) n) ∧
      (x = i * 32 + j ∨ map.bit (i * 32 + j) = false ∧ i * 32 + j ≤ x ∧ x < i * 32 + j + n) := by
  rw [searchWordTested, Scan.mem_traced_range]
  refine exists_congr fun j => and_congr_right fun hj => and_congr ?_ (mem_searchBitTested hj)
  simp only [searchBitTested_fst]
  exact forall₂_congr fun k hk => searchBit_none hn (by omega)

/-- The traced search is the search. -/
theorem searchTested_fst (s : PMM) (size : U32) :
    (searchTested s size).1 = s.firstFreePhysicalPagesBits size := by
  rw [searchTested, firstFreePhysicalPagesBits]
  split_ifs with hsize
  · rfl
  · rw [Scan.traced_fst]
    congr 1
    funext i
    split_ifs
    · exact searchWordTested_fst i
    · rfl

/-- The bits tested: those of the words that are scanned, and the run at each clear bit, up to the first one at
    which a free run begins. -/
theorem mem_searchTested (hsize : size ≠ 0) : x ∈ (searchTested s size).2 ↔
    ∃ c < searchBound s, word s.memoryMap (c / 32) ≠ 0xFFFFFFFF ∧
      (∀ g < c, ¬ FreeRun s.memoryMap g size.toNat) ∧
      (x = c ∨ s.memoryMap.bit c = false ∧ c ≤ x ∧ x < c + size.toNat) := by
  have hn := toNat_pos_of_ne_zero hsize
  have hnone : ∀ i, (if word s.memoryMap i ≠ 0xFFFFFFFF then searchWordTested s.memoryMap size.toNat i
      else (none, [])).1 = none ↔ ∀ j < 32, ¬ FreeRun s.memoryMap (i * 32 + j) size.toNat := by
    intro i
    rw [← searchWord_none hn, ← searchWord_skip hn, ← searchWordTested_fst]
    split_ifs <;> rfl
  rw [searchTested, if_neg hsize, Scan.mem_traced_range]
  simp only [hnone]
  unfold searchBound
  constructor
  · rintro ⟨i, hi, hbefore, hx⟩
    split_ifs at hx with hw
    · obtain ⟨j, hj, hk, hx⟩ := (mem_searchWordTested hn).mp hx
      refine ⟨i * 32 + j, by omega, ?_, fun g hg => ?_, hx⟩
      · rwa [show (i * 32 + j) / 32 = i by omega]
      · rcases Nat.lt_or_ge g (i * 32) with hlt | hge
        · have := hbefore (g / 32) (by omega) (g % 32) (by omega)
          rwa [show g / 32 * 32 + g % 32 = g by omega] at this
        · have := hk (g - i * 32) (by omega)
          rwa [show i * 32 + (g - i * 32) = g by omega] at this
    · exact absurd hx List.not_mem_nil
  · rintro ⟨c, hc, hw, hbefore, hx⟩
    refine ⟨c / 32, by omega, fun i hi j hj => hbefore _ (by omega), ?_⟩
    rw [if_pos hw, mem_searchWordTested hn]
    refine ⟨c % 32, by omega, fun k hk => hbefore _ (by omega), ?_⟩
    rwa [show c / 32 * 32 + c % 32 = c by omega]

/-! ## The number of blocks -/

/-- The words that are scanned are the whole ones. -/
theorem searchBound_le_blockCount : searchBound s ≤ blockCount s := by
  have h : (s.memorySize / 32 / 4096).toNat = s.memorySize.toNat / 32 / 4096 := by
    rw [BitVec.toNat_udiv, BitVec.toNat_udiv]
    rfl
  have h' : (s.memorySize / BLOCK_SIZE).toNat = s.memorySize.toNat / 4096 := by
    rw [BitVec.toNat_udiv]
    rfl
  rw [searchBound, blockCount, h, h']
  omega

/-- A word with a clear bit is not skipped. -/
theorem word_ne_of_bit (h : map.bit c = false) : word map (c / 32) ≠ 0xFFFFFFFF := by
  intro hw
  have hall : ∀ j < 32, (0xFFFFFFFF : U32).getLsbD j = true := by decide
  have hbit : (word map (c / 32)).getLsbD (c % 32) = map.bit (c / 32 * 32 + c % 32) :=
    bit_word (by omega)
  rw [hw, hall _ (by omega), show c / 32 * 32 + c % 32 = c by omega, h] at hbit
  cases hbit

/-- The search finds the first free run of the map and looks at no other bits exactly when every free block it
    comes to has room for the run, and no run is left behind its bound. -/
theorem search_exact_iff (s : PMM) (size : U32) (hsize : size ≠ 0) :
    SearchExact s size ↔ SearchFits s size := by
  have hn := toNat_pos_of_ne_zero hsize
  constructor
  · intro h
    refine ⟨fun c hc hbit hbefore => ?_, fun hnone f _ => h.notFound ((firstFree_none hsize).mpr hnone) f⟩
    -- the last bit of the run at a clear bit is tested
    have hlast := h.tested (c + size.toNat - 1) ((mem_searchTested hsize).mpr
      ⟨c, hc, word_ne_of_bit hbit, hbefore, Or.inr ⟨hbit, by omega, by omega⟩⟩)
    omega
  · rintro ⟨hroom, hrest⟩
    refine ⟨fun f hf => ?_, fun hnone f hfit hrun => ?_, fun b hb => ?_⟩
    · obtain ⟨hlt, hrun, hfirst⟩ := (firstFree_iff hsize).mp hf
      exact ⟨hroom f hlt (hrun.bit hn) hfirst, hrun, fun g _ hg => not_lt.mp fun hgf => hfirst g hgf hg⟩
    · have hno := (firstFree_none hsize).mp hnone
      rcases Nat.lt_or_ge f (searchBound s) with hlt | hge
      · exact hno f hlt hrun
      · exact hrest hno f hge hfit hrun
    · obtain ⟨c, hc, -, hbefore, hb⟩ := (mem_searchTested hsize).mp hb
      rcases hb with rfl | ⟨hbit, -, hlt⟩
      · exact lt_of_lt_of_le hc searchBound_le_blockCount
      · exact lt_of_lt_of_le hlt (hroom c hc hbit hbefore)

/-- On a map with all blocks free the search for one block is exact. -/
theorem search_exact_allFree : SearchExact ⟨0x1000000, 0, 0x1000, { byte := fun _ => 0 }⟩ 1 := by
  have hfree : ∀ f n, FreeRun { byte := fun _ => 0 } f n := fun f n b _ _ => BitVec.getLsbD_zero
  refine (search_exact_iff _ 1 (by decide)).mpr ⟨fun c hc _ hbefore => ?_, fun hnone => ?_⟩
  · rcases Nat.eq_zero_or_pos c with rfl | hpos
    · decide
    · exact absurd (hfree _ _) (hbefore 0 hpos)
  · exact absurd (hfree _ _) (hnone 0 (by decide))

/-- With 33 blocks, the 32 of the first word in use, the search does not come to the last one. -/
theorem search_misses_last_block :
    ¬ SearchExact ⟨33 * 4096, 32, 33, { byte := fun a => if a < 4 then 0xFF else 0 }⟩ 1 := by
  intro h
  refine h.notFound (by decide +kernel) 32 (by decide +kernel) ?_
  intro b h1 h2
  have hb : b = 32 := by
    have h1' : (1 : U32).toNat = 1 := rfl
    omega
  rw [hb]
  decide +kernel

end PMM

end Pros
