import Pros.MM.Kmalloc
import Pros.MM.Proofs.HeapBumpProofs

/-!
# Proofs: the first bytes of blocks

The `memset` of `malloc` runs over the first byte behind the header of the remainder, which is where the next block
will be. So every block but the first of a heap begins with a zero, as long as nothing is freed.
-/

namespace Pros

open MemoryChunk Heap

section Use

variable {start arena : ℕ} {c c' : HeapClient} {heap : Heap} {live : List (U32 × U32)} {bs : List Block} {n : U32}

/-! ## Where a request stores -/

/-- The addresses from the header of the new block to the byte behind the header of the remainder. -/
theorem BumpInv.written_split (h : BumpInv start arena c bs) (hn : n.toNat + 41 ≤ 2 ^ 32) {w : U32}
    (hw : w ∈ (c.heap.split (ptr (start + extent bs)) n).mem.written) :
    w ∈ c.heap.mem.written ∨
      ∃ x, start + extent bs ≤ x ∧ x ≤ start + extent bs + 40 + n.toNat ∧ w = ptr x := by
  rw [h.split_mem hn] at hw
  rcases written_takeChunk hw with hw | ⟨x, h1, h2, rfl⟩
  · rcases written_writeTemp hw with hw | ⟨x, h1, h2, rfl⟩
    · exact Or.inl hw
    · exact Or.inr ⟨x, by omega, by omega, rfl⟩
  · exact Or.inr ⟨x, by omega, by omega, rfl⟩

theorem BumpInv.last_mem_written (h : BumpInv start arena c bs) (hn : n.toNat + 41 ≤ 2 ^ 32) :
    ptr (start + extent bs + 40 + n.toNat) ∈ (c.heap.split (ptr (start + extent bs)) n).mem.written := by
  have hlast : ptr (start + extent bs + 40 + n.toNat) ∈
      (memset c.heap.mem (ptr (start + extent bs + 20 + n.toNat)) 0 sizeofMemoryChunk).written := by
    refine mem_written_memset.mpr (Or.inl ⟨20, by omega, le_rfl, ?_⟩)
    rw [ptr_add_cast]
    congr 1
    omega
  rw [h.split_mem hn]
  simp only [takeChunk, writeTemp, temp_eq, setNext_ptr, setPrev_ptr, setMagic_ptr, setAllocated_ptr, setSize_ptr,
    mem_written_store32_ptr, Memory.written_store8, List.mem_cons, hlast, or_true]

/-! ## The invariant -/

/-- The blocks of an allocation-only run, with a zero in the first byte behind the header of the free chunk once
    anything has been handed out. -/
structure UseInv (start arena : ℕ) (c : HeapClient) (bs : List Block) : Prop extends BumpInv start arena c bs where
  blank : c.live ≠ [] → c.heap.mem.byte (ptr (start + extent bs + 20)) = 0

theorem UseInv.freshLog (h : UseInv start arena c bs) : UseInv start arena ⟨c.freshLog, c.live⟩ bs :=
  ⟨h.toBumpInv.freshLog, h.blank⟩

/-- A successful request clears the first byte of the block that comes next. -/
theorem UseInv.split (h : UseInv start arena c bs) (hpos : 0 < start) (hfit : start + arena ≤ 2 ^ 32)
    (harena : arena + 20 ≤ 2 ^ 32) (hroom : extent bs + n.toNat + 20 < arena) :
    UseInv start arena
      ⟨c.heap.split (ptr (start + extent bs)) n, (ptr (start + extent bs + 20), n) :: c.live⟩
      (bs ++ [⟨n.toNat, true⟩]) := by
  have hspan : extent (bs ++ [⟨n.toNat, true⟩]) = extent bs + 20 + n.toNat := by
    rw [extent_append, extent_cons, extent_nil, Block.span_mk]
    omega
  refine ⟨h.toBumpInv.split hpos hfit harena hroom, fun _ => ?_⟩
  rw [show start + extent (bs ++ [⟨n.toNat, true⟩]) + 20 = start + extent bs + 40 + n.toNat by omega,
    h.split_mem (by omega), byte_takeChunk (by omega) (by omega) (by omega)]
  exact byte_writeTemp_after _ _ _

/-- The new block itself still has the first byte that it had. -/
theorem BumpInv.first_byte_split (h : BumpInv start arena c bs) (hfit : start + arena ≤ 2 ^ 32)
    (hroom : extent bs + n.toNat + 41 ≤ arena) (hn : 0 < n.toNat) :
    (c.heap.split (ptr (start + extent bs)) n).mem.byte (ptr (start + extent bs + 20)) =
      c.heap.mem.byte (ptr (start + extent bs + 20)) := by
  rw [h.split_mem (by omega), byte_takeChunk (by omega) (by omega) (by omega),
    byte_writeTemp (by omega) (by omega) (by omega)]

/-- The free chunk is the last one, so that the low byte of its link is zero. -/
theorem BumpInv.link_byte (h : BumpInv start arena c bs) : c.heap.mem.byte (ptr (start + extent bs)) = 0 := by
  obtain ⟨k, htrail, -⟩ := h.trailing
  have hbyte := c.heap.mem.byte_add_eq (ptr (start + extent bs)) (i := 0) (by decide)
  have hnext : c.heap.mem.load32 (ptr (start + extent bs)) = 0 := htrail.next_eq
  rw [hnext, ptr_add_cast, Nat.add_zero] at hbyte
  exact hbyte

/-- Stores to the blocks handed out. -/
theorem UseInv.congr {m : Ram} (h : UseInv start arena ⟨heap, live⟩ bs)
    (hm : ∀ w, InHeaders start bs w → m.byte w = heap.mem.byte w)
    (htrail : ∀ x, start + extent bs ≤ x → x < start + extent bs + 21 → m.byte (ptr x) = heap.mem.byte (ptr x)) :
    UseInv start arena ⟨{ heap with mem := m }, live⟩ bs :=
  ⟨h.toBumpInv.congr_headers hm fun x h1 h2 => htrail x h1 (by omega),
    fun hlive => (htrail _ (by omega) (by omega)).trans (h.blank hlive)⟩

/-- Stores to the last block. -/
theorem UseInv.congr_last {m : Ram} {b : Block} (h : UseInv start arena ⟨heap, live⟩ (bs ++ [b]))
    (hm : ∀ x, start ≤ x → x < start + extent (bs ++ [b]) + 21 →
      (x < start + extent bs + 20 ∨ start + extent (bs ++ [b]) ≤ x) → m.byte (ptr x) = heap.mem.byte (ptr x)) :
    UseInv start arena ⟨{ heap with mem := m }, live⟩ (bs ++ [b]) := by
  have hspan : extent (bs ++ [b]) = extent bs + (20 + b.size) := by
    rw [extent_append, extent_cons, extent_nil, Block.span_eq, Nat.add_zero]
  refine h.congr (fun w hw => ?_) fun x h1 h2 => hm x (by omega) h2 (Or.inr h1)
  obtain ⟨x, h1, h2, rfl⟩ := hw.concat
  exact hm x h1 (by omega) (Or.inl h2)

/-- Every use of the heap keeps the invariant. -/
theorem UseInv.step {a : HeapAction} (h : UseInv start arena c bs) (hpos : 0 < start)
    (hfit : start + arena ≤ 2 ^ 32) (harena : start + arena + 20 ≤ 2 ^ 32) (hstep : c.Uses a c') :
    ∃ bs', UseInv start arena c' bs' := by
  have hlt := h.lt_arena
  cases a with
  | call op =>
    obtain ⟨hstep, n, rfl, hn⟩ := hstep
    have hfresh := h.freshLog
    have heq := hfresh.toBumpInv.malloc_eq hpos hfit hn
    split_ifs at heq with hroom
    · obtain rfl := HeapClient.step_of_malloc hstep heq
      rw [if_neg (ptr_ne_nullptr (by omega) (by omega))]
      exact ⟨_, hfresh.split hpos hfit (by omega) hroom⟩
    · obtain rfl := HeapClient.step_of_malloc hstep heq
      exact ⟨bs, hfresh⟩
  | put a v =>
    obtain ⟨rfl, x, hx, ha⟩ := hstep
    have hback := h.backed x hx
    have hinside := hback.payload_inside (by omega) ha
    rw [Set.mem_Ico] at hinside
    refine ⟨bs, h.congr (fun w hw => Memory.byte_store8_of_ne ?_) fun y h1 h2 => Memory.byte_store8_of_ne ?_⟩
    · rintro rfl
      exact hback.notMem_of_inHeaders (by omega) hw ha
    · rintro rfl
      rw [toNat_ptr_of_lt (by omega)] at hinside
      omega

end Use

theorem UseInv.run {mem : Ram} {start size : U32} (hsize : 20 ≤ size.toNat) (hstart : start ≠ nullptr)
    (hroom : start.toNat + size.toNat + 20 ≤ 2 ^ 32) {acts : List HeapAction} {c : HeapClient}
    (hrun : Run HeapClient.Uses (HeapClient.new mem start size) acts c) :
    ∃ bs, UseInv start.toNat size.toNat c bs := by
  have hpos : 0 < start.toNat := Nat.pos_of_ne_zero fun hzero => hstart (BitVec.eq_of_toNat_eq hzero)
  refine hrun.invariant (I := fun c => ∃ bs, UseInv _ _ c bs) ?_ fun c a c' ⟨bs, h⟩ hstep => ?_
  · exact ⟨[], .new hsize hstart (by omega), fun hlive => absurd rfl hlive⟩
  · exact h.step hpos (by omega) hroom hstep

end Pros
