import Pros.MM.BootLayout
import Pros.MM.Proofs.BootMapProofs
import Mathlib.Data.List.Pairwise
import Mathlib.Order.Interval.Set.Disjoint

/-!
# Order, bounds and the kernel's blocks at boot

Entries with disjoint bytes cover no common block, so their marks commute. The writes of `initPMM` are those
of `memset` and of a list of calls of `setBit` and `unsetBit`. What is used after booting is never handed
out.
-/

namespace Pros

open PMM

variable {s : PMM} {e e' : MmapEntry} {entries entries' : List MmapEntry} {b : ℕ}

/-! ## Order -/

/-- Rounding down keeps disjoint regions apart. -/
theorem not_covers_of_disjoint (h : e.Below4G) (h' : e'.Below4G) (hdisj : Disjoint e.bytes e'.bytes)
    (hb : e.Covers b) : ¬ e'.Covers b := by
  obtain ⟨h1, h2⟩ := hb
  rintro ⟨h1', h2'⟩
  have haddr : ∀ d : MmapEntry, d.Below4G → d.address = d.addr_low.toNat := by
    intro d hd
    simp [MmapEntry.address, hd.addr_high]
  have hlen : ∀ d : MmapEntry, d.Below4G → d.length = d.len_low.toNat := by
    intro d hd
    simp [MmapEntry.length, hd.len_high]
  unfold MmapEntry.bytes at hdisj
  rw [haddr e h, haddr e' h', hlen e h, hlen e' h', Set.Ico_disjoint_Ico] at hdisj
  omega

/-- The marks of entries that do not both cover the block commute. -/
theorem mark_comm (h : e.Covers b → ¬ e'.Covers b) (used : Bool) :
    mark b (mark b used e) e' = mark b (mark b used e') e := by
  unfold mark
  by_cases hb : e.Covers b
  · rw [if_pos hb, if_pos hb, if_neg (h hb)]
  · rw [if_neg hb, if_neg hb]

theorem countedBlocks_perm (hperm : entries.Perm entries') :
    countedBlocks entries' = countedBlocks entries := by
  induction hperm with
  | nil => rfl
  | cons e _ ih => rw [countedBlocks, countedBlocks, ih]
  | swap e e' entries =>
    simp only [countedBlocks]
    ring
  | trans _ _ ih1 ih2 => rw [ih2, ih1]

/-- Order independence. Entries below 4 GiB with disjoint bytes can be listed in any order. -/
theorem init_perm (hlow : ∀ e ∈ entries, e.Below4G)
    (hdisj : entries.Pairwise fun e e' => Disjoint e.bytes e'.bytes) (hperm : entries.Perm entries')
    (s : PMM) : SameBoot (s.init entries) (s.init entries') := by
  have hsum : entries'.foldl (fun size entry => size + entry.len_low) s.memorySize =
      entries.foldl (fun size entry => size + entry.len_low) s.memorySize := by
    refine (hperm.foldl_eq' (fun x _ y _ z => ?_) _).symm
    ring
  have hmark : ∀ b used, entries'.foldl (mark b) used = entries.foldl (mark b) used := by
    intro b used
    refine (hperm.foldl_eq' (fun e he e' he' z => ?_) _).symm
    by_cases heq : e = e'
    · rw [heq]
    · have hsymm : Std.Symm fun e e' : MmapEntry => Disjoint e.bytes e'.bytes :=
        ⟨fun _ _ h => h.symm⟩
      have hne := hdisj.forall he he' heq
      exact mark_comm (not_covers_of_disjoint (hlow e he) (hlow e' he') hne) z
  unfold PMM.init
  rw [hsum]
  refine ⟨by rw [memorySize_initPMM, memorySize_initPMM], by rw [maxBlocks_initPMM, maxBlocks_initPMM],
    by rw [usedBlocks_initPMM, usedBlocks_initPMM, countedBlocks_perm hperm],
    Memory.byte_eq_of_bit_eq fun b => ?_⟩
  by_cases h512 : 512 ≤ b
  · rw [bit_initPMM_of_le h512, bit_initPMM_of_le h512, hmark]
  · rw [initPMM_reserved (by omega), initPMM_reserved (by omega)]

/-- The entries of a small PC, in the opposite order. -/
theorem init_perm_smallPc : SameBoot ((PMM.zero { byte := fun _ => 0 }).init smallPc)
    ((PMM.zero { byte := fun _ => 0 }).init smallPc.reverse) := by
  refine init_perm (fun e he => ?_) ?_ smallPc.reverse_perm.symm _
  · simp only [smallPc, List.mem_cons, List.not_mem_nil, or_false] at he
    rcases he with rfl | rfl | rfl <;> exact ⟨rfl, rfl, by decide⟩
  · simp only [smallPc, List.pairwise_cons, List.forall_mem_cons, MmapEntry.bytes, Set.Ico_disjoint_Ico]
    decide

/-! ## Bounds -/

section Calls

variable {map : Memory ℕ} {start size : U32} {n : ℕ} {calls : List BitCall} {x : BitCall} {a : ℕ}

theorem memoryMap_useBlocks : (useBlocks s b n).memoryMap =
    ((List.range' b n).map BitCall.setBit).foldl BitCall.apply s.memoryMap := by
  induction n generalizing s b with
  | zero => rfl
  | succ n ih => rw [useBlocks, ih, List.range'_succ, List.map_cons, List.foldl_cons, BitCall.apply]

theorem memoryMap_freeBlocks : (freeBlocks s b n).memoryMap =
    ((List.range' b n).map BitCall.unsetBit).foldl BitCall.apply s.memoryMap := by
  induction n generalizing s b with
  | zero => rfl
  | succ n ih => rw [freeBlocks, ih, List.range'_succ, List.map_cons, List.foldl_cons, BitCall.apply]

theorem memoryMap_setRegionUsed : (setRegionUsed s start size).memoryMap =
    (BitCall.setRegionUsed start size).foldl BitCall.apply s.memoryMap := by
  rw [BitCall.setRegionUsed, List.foldl_append, ← memoryMap_useBlocks]
  rfl

theorem memoryMap_setRegion : (setRegion s e).memoryMap =
    (BitCall.setRegion e).foldl BitCall.apply s.memoryMap := by
  rw [setRegion_eq, BitCall.setRegion]
  split_ifs
  · exact memoryMap_freeBlocks
  · exact memoryMap_setRegionUsed

/-- What `initPMM` does to the bitmap after the fill. -/
theorem memoryMap_initPMM : (s.initPMM entries).memoryMap =
    (BitCall.initPMM entries).foldl BitCall.apply (fill s).memoryMap := by
  have hentries : ∀ s : PMM, (entries.foldl setRegion s).memoryMap =
      (entries.flatMap BitCall.setRegion).foldl BitCall.apply s.memoryMap := by
    induction entries with
    | nil => exact fun _ => rfl
    | cons e entries ih =>
      intro s
      rw [List.foldl_cons, ih, memoryMap_setRegion, List.flatMap_cons, List.foldl_append]
  rw [PMM.initPMM, memoryMap_setRegionUsed, hentries, BitCall.initPMM, List.foldl_append]

/-- A call writes to the word of its bit. -/
theorem mem_written_apply : a ∈ (x.apply map).written ↔ a / 4 = x.bit / 32 ∨ a ∈ map.written := by
  have hword : ∀ b v, a ∈ (map.store32 (4 * (b / 32)) v).written ↔ a / 4 = b / 32 ∨ a ∈ map.written := by
    intro b v
    simp only [Memory.written_store32, List.mem_cons, Nat.cast_id, ← or_assoc]
    refine or_congr_left ?_
    omega
  cases x with
  | setBit b => exact hword b _
  | unsetBit b => exact hword b _

theorem mem_written_foldl : a ∈ (calls.foldl BitCall.apply map).written ↔
    (∃ x ∈ calls, a / 4 = x.bit / 32) ∨ a ∈ map.written := by
  induction calls generalizing map with
  | nil => simp
  | cons x calls ih =>
    rw [List.foldl_cons, ih, mem_written_apply, List.exists_mem_cons_iff, ← or_assoc,
      or_comm (b := a / 4 = x.bit / 32)]

theorem mem_written_fill : a ∈ (fill s).memoryMap.written ↔
    1 ≤ a ∧ a ≤ s.memorySize.toNat / 4096 / 8 ∨ a ∈ s.memoryMap.written := by
  have hcount : (s.memorySize / BLOCK_SIZE / BLOCKS_PER_BYTE).toNat = s.memorySize.toNat / 4096 / 8 := by
    rw [BitVec.toNat_udiv, toNat_div_BLOCK_SIZE]
    rfl
  rw [fill, hcount, mem_written_memset]
  simp only [Nat.zero_add, Nat.cast_id]
  refine or_congr_left ⟨?_, fun h => ⟨a, h.1, h.2, rfl⟩⟩
  rintro ⟨i, h1, h2, rfl⟩
  exact ⟨h1, h2⟩

/-- The bits of the calls for a region are below a bound if the region is. -/
theorem forall_range'_lt {f : ℕ → BitCall} (hf : ∀ b, (f b).bit = b) {m : ℕ} :
    (∀ x ∈ (List.range' b n).map f, x.bit < m) ↔ 0 < n → b + n ≤ m := by
  simp only [List.forall_mem_map, List.mem_range'_1, hf]
  constructor
  · intro h hn
    have := h (b + n - 1) ⟨by omega, by omega⟩
    omega
  · rintro h i ⟨h1, h2⟩
    have := h (by omega)
    omega

theorem forall_setRegionUsed_lt {m : ℕ} : (∀ x ∈ BitCall.setRegionUsed start size, x.bit < m) ↔
    (0 < size.toNat / 4096 → start.toNat / 4096 + size.toNat / 4096 ≤ m) ∧ 0 < m := by
  rw [BitCall.setRegionUsed, List.forall_mem_append, forall_range'_lt fun _ => rfl,
    toNat_div_BLOCK_SIZE, toNat_div_BLOCK_SIZE, List.forall_mem_singleton]
  rfl

theorem forall_setRegion_lt {m : ℕ} (hm : 0 < m) : (∀ x ∈ BitCall.setRegion e, x.bit < m) ↔
    (4096 ≤ e.len_low.toNat → e.addr_low.toNat / 4096 + e.len_low.toNat / 4096 ≤ m) := by
  have hpos : 0 < e.len_low.toNat / 4096 ↔ 4096 ≤ e.len_low.toNat := by omega
  rw [BitCall.setRegion]
  split_ifs
  · rw [BitCall.setRegionFree, forall_range'_lt fun _ => rfl, toNat_div_BLOCK_SIZE,
      toNat_div_BLOCK_SIZE, hpos]
  · rw [forall_setRegionUsed_lt, hpos, and_iff_left hm]

theorem forall_initPMM_lt {m : ℕ} : (∀ x ∈ BitCall.initPMM entries, x.bit < m) ↔
    512 ≤ m ∧ ∀ e ∈ entries, 4096 ≤ e.len_low.toNat →
      e.addr_low.toNat / 4096 + e.len_low.toNat / 4096 ≤ m := by
  have hreserve : (∀ x ∈ BitCall.setRegionUsed 0x00000000 (MB 2), x.bit < m) ↔ 512 ≤ m := by
    have hsize : (MB 2).toNat = 2 * 2 ^ 20 := by decide
    have hstart : (0x00000000 : U32).toNat = 0 := rfl
    rw [forall_setRegionUsed_lt, hsize, hstart]
    omega
  rw [BitCall.initPMM, List.forall_mem_append, hreserve, and_comm]
  refine and_congr_right ?_
  intro hm
  simp only [List.forall_mem_flatMap]
  exact forall₂_congr fun e _ => forall_setRegion_lt (by omega)

end Calls

/-- The sum that `init` computes. -/
theorem toNat_memorySize_init : (s.init entries).memorySize.toNat =
    (s.memorySize.toNat + totalLength entries) % 2 ^ 32 := by
  have hsum : ∀ m : U32, (entries.foldl (fun size entry => size + entry.len_low) m).toNat =
      (m.toNat + totalLength entries) % 2 ^ 32 := by
    induction entries with
    | nil =>
      intro m
      exact (Nat.mod_eq_of_lt m.isLt).symm
    | cons e entries ih =>
      intro m
      rw [List.foldl_cons, ih, BitVec.toNat_add, totalLength, totalLength, List.map_cons, List.sum_cons,
        Nat.mod_add_mod, Nat.add_assoc]
  rw [PMM.init, memorySize_initPMM]
  exact hsum _

/-- A region contains a whole block if there is a block boundary before its last one. -/
theorem forall_blockBytes_lt {m : ℕ} : (∀ b, blockBytes b ⊆ e.bytes → b < m) ↔
    ((e.address + 4095) / 4096 < (e.address + e.length) / 4096 → (e.address + e.length) / 4096 ≤ m) := by
  have hblock : ∀ b, blockBytes b ⊆ e.bytes ↔
      e.address ≤ 4096 * b ∧ 4096 * b + 4096 ≤ e.address + e.length := by
    intro b
    unfold blockBytes MmapEntry.bytes
    exact Set.Ico_subset_Ico_iff (by omega)
  simp only [hblock]
  constructor
  · intro h hlt
    have := h ((e.address + e.length) / 4096 - 1) ⟨by omega, by omega⟩
    omega
  · rintro h b ⟨h1, h2⟩
    have := h (by omega)
    omega

/-- Where booting writes. -/
theorem mem_written_init {ram : ℕ → U8} {a : ℕ} :
    a ∈ ((PMM.zero { byte := ram }).init entries).memoryMap.written ↔
      (∃ x ∈ BitCall.initPMM entries, a / 4 = x.bit / 32) ∨
        1 ≤ a ∧ a ≤ ((PMM.zero { byte := ram }).init entries).maxBlocks.toNat / 8 := by
  rw [PMM.init, memoryMap_initPMM, mem_written_foldl, mem_written_fill, toNat_maxBlocks_initPMM]
  simp only [PMM.zero, List.not_mem_nil, or_false]

/-- Bounds at boot. The fill of the bitmap is followed by the calls listed, and booting stays inside the
    bitmap exactly when the memory map fits it. -/
theorem bitmap_bounds_iff (ram : ℕ → U8) (entries : List MmapEntry) :
    (∀ s : PMM, (s.initPMM entries).memoryMap =
      (BitCall.initPMM entries).foldl BitCall.apply (fill s).memoryMap) ∧
    (BitmapBounds (.zero { byte := ram }) entries ↔ MapFits entries) := by
  refine ⟨fun _ => memoryMap_initPMM, ?_⟩
  have hsize := @toNat_memorySize_init (.zero { byte := ram }) entries
  rw [show (PMM.zero { byte := ram }).memorySize.toNat = 0 from rfl, Nat.zero_add] at hsize
  have hmax : ((PMM.zero { byte := ram }).init entries).maxBlocks.toNat =
      ((PMM.zero { byte := ram }).init entries).memorySize.toNat / 4096 := by
    rw [PMM.init, toNat_maxBlocks_initPMM, memorySize_initPMM]
  constructor
  · intro h
    have hwrap := h.no_wrap
    rw [hwrap] at hmax hsize
    obtain ⟨hreserve, hregions⟩ := forall_initPMM_lt.mp h.bits
    rw [hmax] at hreserve hregions
    refine ⟨by omega, by omega, fun hword => ?_, hregions, fun e he ha => ?_⟩
    · -- The last byte of the fill.
      have hlast := h.writes (totalLength entries / 4096 / 8)
        (mem_written_init.mpr (Or.inr ⟨by omega, by rw [hmax]⟩))
      rw [hmax] at hlast
      omega
    · rw [← hmax]
      exact forall_blockBytes_lt.mp (h.available e he ha)
  · intro h
    have hlt := h.sum_lt
    have hreserve := h.reserve
    have hword := h.last_word
    rw [Nat.mod_eq_of_lt hlt] at hsize
    rw [hsize] at hmax
    have hbits : ∀ x ∈ BitCall.initPMM entries, x.bit < totalLength entries / 4096 :=
      forall_initPMM_lt.mpr ⟨by omega, h.regions⟩
    refine ⟨hsize, by rwa [hmax], fun a ha => ?_, fun e he hav => ?_⟩
    · rw [mem_written_init, hmax] at ha
      rw [hmax]
      rcases ha with ⟨x, hx, hxa⟩ | ⟨-, ha⟩
      · have := hbits x hx
        omega
      · omega
    · rw [hmax]
      exact forall_blockBytes_lt.mpr (h.available e he hav)

/-- The blocks behind the hole have no bit. -/
theorem bits_beyond_hole : (∀ e ∈ memoryHole, e.Below4G) ∧
    ¬ (∀ x ∈ BitCall.initPMM memoryHole,
      x.bit < ((PMM.zero { byte := fun _ => 0 }).init memoryHole).maxBlocks.toNat) ∧
    ¬ BitmapBounds (.zero { byte := fun _ => 0 }) memoryHole := by
  have hbits : ¬ (∀ x ∈ BitCall.initPMM memoryHole,
      x.bit < ((PMM.zero { byte := fun _ => 0 }).init memoryHole).maxBlocks.toNat) := by
    rw [forall_initPMM_lt, PMM.init, toNat_maxBlocks_initPMM]
    rintro ⟨-, h⟩
    have := h ⟨0x1000000, 0, 0xC00000, 0, MULTIBOOT_MEMORY_AVAILABLE⟩ (by simp [memoryHole]) (by decide)
    exact absurd this (by decide)
  refine ⟨?_, hbits, fun h => hbits h.bits⟩
  simp only [memoryHole, List.forall_mem_cons]
  exact ⟨⟨rfl, rfl, by decide⟩, ⟨rfl, rfl, by decide⟩, by simp⟩

end Pros
