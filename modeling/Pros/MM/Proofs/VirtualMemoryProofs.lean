import Pros.MM.VirtualMemory
import Pros.MM.Proofs.AddressSpaceProofs
import Pros.MM.Proofs.HeapSafetyProofs

/-!
# Proofs: the kernel heap behind the page tables

The walk reads the page directory and the page tables that are there, and no frame of the heap is one of them. So
the heap's stores move no page, and what the kernel sees of its heap is the heap on flat memory.
-/

namespace Pros

open MemoryManager PageEntry MemoryChunk Heap

/-! ## What the walk reads -/

section Walk

variable {m m' : MemoryManager} {d p : ℕ} {v virt : U32}

/-- The words of a frame depend on the frame's bytes. -/
theorem word_congr_frame {ram ram' : Ram} {t j : ℕ} (ht : t < 2 ^ 20) (hj : j < 1024)
    (h : ∀ x : U32, x.toNat / 4096 = t → ram'.byte x = ram.byte x) :
    word ram' (1024 * t + j) = word ram (1024 * t + j) := by
  refine Memory.load32_congr fun i hi => h _ ?_
  rw [ptr_add_cast, toNat_ptr_of_lt (by omega)]
  omega

theorem walk_congr (h : Paged m d) (hdir : m'.currentPageDirectory = m.currentPageDirectory)
    (hbytes : ∀ x : U32, (x.toNat / 4096 = d ∨
      ∃ k < 1024, present (dirEntry m d k) = true ∧ x.toNat / 4096 = tableFrame m d k) →
      m'.ram.byte x = m.ram.byte x) : m'.walk v = m.walk v := by
  have hlt := h.dir_settled.lt
  have hentry : m'.walkDirectory v = m.walkDirectory v := by
    rw [walkDirectory_eq h.dir_eq, walkDirectory_eq (hdir.trans h.dir_eq)]
    exact word_congr_frame (by omega) (dirIndex_lt v) fun x hx => hbytes x (Or.inl hx)
  cases hp : present (m.walkDirectory v) with
  | false => simp only [walk, hentry, hp, Bool.false_and, Bool.false_eq_true, if_false]
  | true =>
    have htable : m'.walkTable v = m.walkTable v := by
      rw [walkTable_eq, walkTable_eq, hentry]
      refine word_congr_frame (toNat_frame_lt _) (tableIndex_lt v) fun x hx => hbytes x (Or.inr ?_)
      rw [walkDirectory_eq h.dir_eq] at hp hx
      exact ⟨dirIndex v, dirIndex_lt v, hp, hx⟩
    rw [walk, walk, hentry, htable]

end Walk

/-! ## The heap's own frames -/

section Own

variable {m : MemoryManager} {d p : ℕ}

theorem mem_heapArena_iff {a : U32} : a ∈ heapArena KERNEL_HEAP_START KERNEL_HEAP_SIZE ↔
    ∃ k < 256, pageOf a = pageOf (heapPage k) := by
  have harena : a ∈ heapArena KERNEL_HEAP_START KERNEL_HEAP_SIZE ↔ 0xC0400000 ≤ a.toNat ∧ a.toNat < 0xC0500000 :=
    Iff.rfl
  rw [harena]
  constructor
  · rintro ⟨h1, h2⟩
    refine ⟨(a.toNat - 0xC0400000) / 4096, by omega, BitVec.eq_of_toNat_eq ?_⟩
    rw [toNat_pageOf, toNat_pageOf, toNat_heapPage (by omega)]
    omega
  · rintro ⟨k, hk, h⟩
    have hnat := congrArg BitVec.toNat h
    rw [toNat_pageOf, toNat_pageOf, toNat_heapPage hk] at hnat
    omega

/-- The bytes behind the heap are in the frames of its pages. -/
theorem mem_places_iff {x : U32} :
    x ∈ Paging.places m.translation m.ram (heapArena KERNEL_HEAP_START KERNEL_HEAP_SIZE) ↔
      ∃ k < 256, m.walk (heapPage k) = some (pageOf x) := by
  constructor
  · rintro ⟨a, ha, hx⟩
    obtain ⟨k, hk, hpage⟩ := mem_heapArena_iff.mp ha
    exact ⟨k, hk, walk_page hpage ▸ (translate_eq_some_iff.mp hx).1⟩
  · rintro ⟨k, hk, hx⟩
    have hnat : (heapPage k + BitVec.ofNat 32 (x.toNat % 4096)).toNat = 0xC0400000 + 4096 * k + x.toNat % 4096 := by
      rw [BitVec.toNat_add, toNat_heapPage hk, BitVec.toNat_ofNat]
      omega
    have hpage : pageOf (heapPage k + BitVec.ofNat 32 (x.toNat % 4096)) = pageOf (heapPage k) := by
      apply BitVec.eq_of_toNat_eq
      rw [toNat_pageOf, toNat_pageOf, hnat, toNat_heapPage hk]
      omega
    refine ⟨heapPage k + BitVec.ofNat 32 (x.toNat % 4096), mem_heapArena_iff.mpr ⟨k, hk, hpage⟩, ?_⟩
    exact translate_eq_some_iff.mpr ⟨(walk_page hpage).trans hx, by rw [hnat]; omega⟩

theorem HeapMapped.walk_heapPage (h : HeapMapped m d 256 p) {k : ℕ} (hk : k < 256) :
    ∃ f, m.walk (heapPage k) = some (BitVec.ofNat 32 f) ∧ Private m d f := by
  obtain ⟨f, hf, hpriv, -⟩ := h.frames k hk
  exact ⟨f, (h.paged.walk_eq hf (h.paged.own h.zero (dirIndex_lt _) (h.paged.mapped _ _ hf))).1, hpriv⟩

theorem HeapMapped.walk_inj (h : HeapMapped m d 256 p) {k l : ℕ} (hk : k < 256) (hl : l < 256)
    (heq : m.walk (heapPage k) = m.walk (heapPage l)) : k = l := by
  have hspace := h.initialSpace.distinct
  rw [heapPages_eq] at hspace
  exact hspace k hk l hl heq

/-- The heap has its bytes in physical memory for itself, and the walk does not read them. -/
theorem HeapMapped.own (h : HeapMapped m d 256 p) :
    Paging.Own m.translation m.ram (heapArena KERNEL_HEAP_START KERNEL_HEAP_SIZE) := by
  constructor
  · intro a ha
    obtain ⟨k, hk, hpage⟩ := mem_heapArena_iff.mp ha
    obtain ⟨f, hf, -⟩ := h.walk_heapPage hk
    exact ⟨_, congrArg (Option.map _) ((walk_page hpage).trans hf)⟩
  · intro a ha b hb heq
    obtain ⟨k, hk, hka⟩ := mem_heapArena_iff.mp ha
    obtain ⟨l, hl, hlb⟩ := mem_heapArena_iff.mp hb
    obtain ⟨f, hf, -⟩ := h.walk_heapPage hk
    obtain ⟨x, hx⟩ : ∃ x, m.translate a = some x := ⟨_, congrArg (Option.map _) ((walk_page hka).trans hf)⟩
    obtain ⟨hxa, hoffa⟩ := translate_eq_some_iff.mp hx
    obtain ⟨hxb, hoffb⟩ := translate_eq_some_iff.mp (heq.symm.trans hx)
    obtain rfl := h.walk_inj hk hl
      ((walk_page hka).symm.trans (hxa.trans (hxb.symm.trans (walk_page hlb))))
    have hpages := congrArg BitVec.toNat (hka.trans hlb.symm)
    rw [toNat_pageOf, toNat_pageOf] at hpages
    exact BitVec.eq_of_toNat_eq (by omega)
  · intro ram' hram'
    funext v
    suffices hwalk : ({ m with ram := ram' } : MemoryManager).walk v = m.walk v from congrArg (Option.map _) hwalk
    refine walk_congr h.paged rfl fun x hx => hram' x ?_
    -- A frame of the heap is neither the directory nor a page table.
    rw [mem_places_iff]
    rintro ⟨k, hk, hwalk⟩
    obtain ⟨f, hf, hpriv⟩ := h.walk_heapPage hk
    have hlt := hpriv.lt
    have hnat := congrArg BitVec.toNat (Option.some.inj (hf.symm.trans hwalk))
    rw [toNat_pageOf, BitVec.toNat_ofNat, Nat.mod_eq_of_lt (by omega)] at hnat
    rcases hx with hx | ⟨i, hi, hpi, hx⟩
    · exact hpriv.ne_dir (by omega)
    · exact hpriv.ne_table i hi hpi (by omega)

end Own

end Pros
