import Pros.MM.StaleBytes
import Pros.MM.Proofs.VMMGrantProofs

/-!
# When only what was asked for is mapped

The first entries of the directory and of the page tables are all that `memset` leaves anything in
(`Cleared`). So one call keeps to what was mapped exactly when the first bytes that it meets are clean
(`onlyMapped_mapPage`).
-/

namespace Pros

open MemoryManager PageEntry

section Words

variable {ram : Ram} {w f : U32} {t : ℕ}

theorem plain_zero : Plain 0 := fun _ _ _ => BitVec.getLsbD_zero

theorem plain_entryWord : Plain (entryWord w f) ↔ Plain w := by
  refine forall_congr' fun i => forall_congr' fun hi => forall_congr' fun h2 => ?_
  rw [getLsbD_entryWord hi, decide_eq_false (by omega), Bool.or_false]

/-- The low byte of a word. -/
theorem getLsbD_byte {i : ℕ} (hi : i < 8) :
    (ram.byte (ptr (t * 4096))).getLsbD i = (word ram (1024 * t)).getLsbD i := by
  rw [word, Memory.getLsbD_load32 _ _ (by omega), Nat.div_eq_of_lt hi, Nat.mod_eq_of_lt hi, ptr_add_cast,
    show 4 * (1024 * t) + 0 = t * 4096 by omega]

end Words

/-- Only first bytes are left over from before. -/
structure Cleared (m : MemoryManager) (d : ℕ) : Prop where
  directory : ∀ k < 1024, k ≠ 0 → Plain (dirEntry m d k)
  directory_first : ∀ i < 12, 8 ≤ i → (dirEntry m d 0).getLsbD i = false
  table : ∀ virt, present (dirEntry m d (dirIndex virt)) = true → tableFrame m d (dirIndex virt) ≠ 0 →
    tableIndex virt ≠ 0 → (lastMapping m virt = none → present (tableEntry m d virt) = false) ∧
      Plain (tableEntry m d virt)
  table_first : ∀ k < 1024, present (dirEntry m d k) = true → tableFrame m d k ≠ 0 →
    ∀ i < 12, 8 ≤ i → (word m.ram (1024 * tableFrame m d k)).getLsbD i = false

/-- What creating a page table in a frame of its own does for entry `i`. -/
structure FreshTable (m m' : MemoryManager) (d i t : ℕ) : Prop extends NewTable m m' d i t where
  frame_ne : t ≠ 0
  entry_eq : dirEntry m' d i = entryWord (dirEntry m d i) (BitVec.ofNat 32 t)
  first_eq : ∀ j < 32, (word m'.ram (1024 * t)).getLsbD j =
    (decide (j < 8) && (word m.ram (1024 * t)).getLsbD j)

section Step

variable {m m' : MemoryManager} {d i t : ℕ} {phys virt v : U32}

/-- Every pair of indices is that of a page. -/
theorem exists_page {i j : ℕ} (hi : i < 1024) (hj : j < 1024) :
    ∃ virt : U32, dirIndex virt = i ∧ tableIndex virt = j := by
  have hnat : (BitVec.ofNat 32 (i * 2 ^ 22 + j * 2 ^ 12)).toNat = i * 2 ^ 22 + j * 2 ^ 12 := by
    rw [BitVec.toNat_ofNat]
    omega
  refine ⟨BitVec.ofNat 32 (i * 2 ^ 22 + j * 2 ^ 12), ?_, ?_⟩
  · rw [dirIndex, hnat]
    omega
  · rw [tableIndex, hnat]
    omega

theorem exists_freshTable (h : Paged m d) (habs : present (dirEntry m d (dirIndex virt)) = false)
    (hg : TableGranted m (.mapPage phys virt)) :
    ∃ t, (m.getFreePhysicalPage 1).1 = ptr (t * 4096) ∧
      FreshTable m (m.flatEnsureTable virt) d (dirIndex virt) t := by
  obtain ⟨t, hp, hn⟩ := (flatEnsureTable_cases h virt).elim (fun h1 => by rw [habs] at h1; cases h1.1) (·.2)
  have hi := dirIndex_lt virt
  have hd := h.dir_settled.lt
  have ht := hn.newFrame.lt
  have hne : t ≠ 0 := by
    rintro rfl
    exact (tableGranted_iff h).mp hg habs hp
  have hdt : d < t := (hn.newFrame.above h.dir_settled).resolve_left hne
  have he : VIRT_2_PHYS (m.directoryEntry virt) = ptr (4 * (1024 * d + dirIndex virt)) :=
    directoryEntry_eq h.dir_eq
  have hram : (m.flatEnsureTable virt).ram = flatSetEntry (memset m.ram (ptr (t * 4096)) 0 sizeofPageTable)
      (m.directoryEntry virt) (pageOf (ptr (t * 4096))) := by
    rw [flatEnsureTable_eq h, if_neg (Bool.not_eq_true _ ▸ habs), ram_flatNewTable hp]
  refine ⟨t, hp, hn, hne, ?_, fun j hj => ?_⟩
  · rw [dirEntry, hram, word_flatSetEntry he (by omega) (by omega), if_pos rfl, pageOf_frame (by omega),
      word_memset_of_ne ht (by omega) (by omega), dirEntry]
  · rw [hram, word_flatSetEntry he (by omega) (by omega), if_neg (by omega), getLsbD_word_memset hj]

theorem FreshTable.lt (h : Paged m d) (hn : FreshTable m m' d i t) : d < t :=
  (hn.newFrame.above h.dir_settled).resolve_left hn.frame_ne

theorem ne_of_present (habs : present (dirEntry m d i) = false)
    (hp : present (dirEntry m d (dirIndex v)) = true) : dirIndex v ≠ i := by
  rintro rfl
  rw [habs] at hp
  cases hp

/-- The other tables stay as they are. -/
theorem FreshTable.other (h : Paged m d) (hn : FreshTable m m' d i t) (hi : i < 1024)
    (hne : dirIndex v ≠ i) : dirEntry m' d (dirIndex v) = dirEntry m d (dirIndex v) ∧
      tableFrame m' d (dirIndex v) = tableFrame m d (dirIndex v) ∧
      (present (dirEntry m d (dirIndex v)) = true → tableEntry m' d v = tableEntry m d v) := by
  have hk := dirIndex_lt v
  have hframe := hn.tableFrame_of_ne h hi hk hne
  refine ⟨(hn.frames h hi).1 _ hk hne, hframe, fun hp => ?_⟩
  rw [tableEntry, tableEntry, hframe]
  rcases h.settled _ hk hp with h0 | ⟨hs, hsd⟩
  · have hge := h.dir_settled.ge
    have hj := tableIndex_lt v
    have hlt := hn.lt h
    exact hn.word_eq _ (by omega) (by omega) (by omega)
  · exact (hn.frames h hi).2 _ hs hsd _ (tableIndex_lt v)

/-- The new table is empty, except for the low byte of its first entry. -/
theorem FreshTable.new (h : Paged m d) (hn : FreshTable m m' d i t) (hi : i < 1024) (hv : dirIndex v = i) :
    tableFrame m' d (dirIndex v) = t ∧ (tableIndex v ≠ 0 → tableEntry m' d v = 0) ∧
      (tableIndex v = 0 → tableEntry m' d v = word m'.ram (1024 * t)) := by
  have hj := tableIndex_lt v
  have hlt := hn.lt h
  have hframe : tableFrame m' d (dirIndex v) = t := by rw [hv, hn.tableFrame_eq]
  refine ⟨hframe, fun hne => ?_, fun h0 => ?_⟩
  · rw [tableEntry, hframe]
    exact hn.cleared _ (by omega) (by omega) (by omega)
  · rw [tableEntry, hframe, h0, Nat.add_zero]

/-- A page without a table is not mapped. -/
theorem lastMapping_of_absent (h : Paged m d) (habs : present (dirEntry m d (dirIndex v)) = false) :
    lastMapping m v = none := by
  by_contra hsome
  obtain ⟨f, hf⟩ := Option.ne_none_iff_exists'.mp hsome
  rw [h.mapped v f hf] at habs
  cases habs

theorem FreshTable.lastMapping_eq (hn : FreshTable m m' d i t) (v : U32) :
    lastMapping m' v = lastMapping m v := by
  rw [lastMapping, hn.mapped_eq, lastMapping]

theorem Cleared.flatNewTable (hc : Cleared m d) (h : Paged m d) (hn : FreshTable m m' d i t) (hi : i < 1024)
    (habs : present (dirEntry m d i) = false) : Cleared m' d := by
  have hdirs := (hn.frames h hi).1
  constructor
  · intro k hk hk0
    by_cases hki : k = i
    · subst hki
      rw [hn.entry_eq, plain_entryWord]
      exact hc.directory k hk hk0
    · rw [hdirs k hk hki]
      exact hc.directory k hk hk0
  · intro j hj hj8
    by_cases hi0 : 0 = i
    · subst hi0
      rw [hn.entry_eq, getLsbD_entryWord hj, hc.directory_first j hj hj8, decide_eq_false (by omega),
        Bool.or_false]
    · rw [hdirs 0 (by omega) hi0]
      exact hc.directory_first j hj hj8
  · intro v hp hne hv0
    by_cases hv : dirIndex v = i
    · rw [(hn.new h hi hv).2.1 hv0]
      exact ⟨fun _ => rfl, plain_zero⟩
    · obtain ⟨hentry, hframe, htable⟩ := hn.other h hi hv
      rw [hentry] at hp
      rw [hframe] at hne
      rw [hn.lastMapping_eq, htable hp]
      exact hc.table v hp hne hv0
  · intro k hk hp hne j hj hj8
    by_cases hki : k = i
    · subst hki
      rw [hn.tableFrame_eq, hn.first_eq j (by omega), decide_eq_false (by omega), Bool.false_and]
    · obtain ⟨v, rfl, hv0⟩ := exists_page hk (Nat.zero_lt_succ 1023)
      obtain ⟨hentry, hframe, htable⟩ := hn.other h hi hki
      rw [hentry] at hp
      rw [hframe] at hne
      have hword := htable hp
      rw [tableEntry, tableEntry, hv0, Nat.add_zero, Nat.add_zero, hframe] at hword
      rw [hframe, hword]
      exact hc.table_first _ hk hp hne j hj hj8

section Store

variable (h : Paged m d) (hz : ZeroFrameFirst m d) (hp : present (dirEntry m d (dirIndex virt)) = true)
  (hs : StoresPage m m' d phys virt)

include h hp hs

theorem StoresPage.tableFrame_eq {k : ℕ} (hk : k < 1024) : tableFrame m' d k = tableFrame m d k := by
  rw [tableFrame, hs.dirEntry_eq h hp hk, tableFrame]

omit h hp in
theorem StoresPage.lastMapping_eq (v : U32) : lastMapping m' v =
    if pageOf virt = pageOf v then some (pageOf phys) else lastMapping m v := by
  rw [lastMapping, hs.mapped_eq]
  rfl

include hz

theorem Cleared.store (hc : Cleared m d) : Cleared m' d := by
  have hdirs : ∀ k < 1024, dirEntry m' d k = dirEntry m d k := fun k hk => hs.dirEntry_eq h hp hk
  have hframes : ∀ k < 1024, tableFrame m' d k = tableFrame m d k := fun k hk => hs.tableFrame_eq h hp hk
  constructor
  · intro k hk hk0
    rw [hdirs k hk]
    exact hc.directory k hk hk0
  · rw [hdirs 0 (by omega)]
    exact hc.directory_first
  · intro v hv hne hv0
    rw [hdirs _ (dirIndex_lt v)] at hv
    rw [hframes _ (dirIndex_lt v)] at hne
    obtain ⟨hunmapped, hplain⟩ := hc.table v hv hne hv0
    rw [hs.tableEntry_eq h hp (h.own hz (dirIndex_lt v) hv), hs.lastMapping_eq]
    split_ifs with hpage
    · exact ⟨fun hnone => hnone.elim, plain_entryWord.mpr hplain⟩
    · exact ⟨hunmapped, hplain⟩
  · intro k hk hpk hne j hj hj8
    rw [hdirs k hk] at hpk
    rw [hframes k hk] at hne ⊢
    have hT := @tableFrame_lt m d k
    have hold := hc.table_first k hk hpk hne j hj hj8
    rw [hs.word_eq (by omega)]
    split_ifs
    · rw [getLsbD_entryWord hj, hold, decide_eq_false (by omega), Bool.or_false]
    · exact hold

end Store

/-! ## The whole call -/

theorem Cleared.flatMapPage (hc : Cleared m d) (h : Paged m d) (hz : ZeroFrameFirst m d)
    (hg : TableGranted m (.mapPage phys virt)) : Cleared (m.flatMapPage phys virt) d := by
  obtain ⟨h1, hp1⟩ := h.flatEnsureTable virt
  have hs := storesPage_flatMapPage h1.dir_eq phys
  refine Cleared.store h1 (hz.flatEnsureTable h hg) hp1 hs ?_
  cases hp : present (dirEntry m d (dirIndex virt)) with
  | true =>
    rw [flatEnsureTable_eq h, if_pos hp]
    exact hc
  | false =>
    obtain ⟨t, -, hn⟩ := exists_freshTable h hp hg
    exact hc.flatNewTable h hn (dirIndex_lt virt) hp

theorem Cleared.getFreePhysicalPage (hc : Cleared m d) (size : U32) :
    Cleared (m.getFreePhysicalPage size).2 d :=
  ⟨hc.directory, hc.directory_first, hc.table, hc.table_first⟩

theorem Cleared.flatExec (hc : Cleared m d) (h : Paged m d) (hz : ZeroFrameFirst m d) {op : VmmOp}
    (hg : TableGranted m op) : Cleared (m.flatExec op) d := by
  cases op with
  | mapPage phys virt => exact hc.flatMapPage h hz hg
  | getFreePhysicalPage size => exact hc.getFreePhysicalPage size

end Step

end Pros
