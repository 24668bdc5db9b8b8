import Pros.Driver.Proofs.DiskReadProofs
import Pros.MM.Proofs.HeapBumpProofs

/-!
# Proofs: the buffers of a read

While there is room, the heap is a row of blocks that are handed out and one free chunk behind them (`BumpInv`). A
sector's buffer is the next block of the row, so that its data is nowhere near the headers.
-/

namespace Pros

open MemoryChunk Heap

section Bump

variable {start arena : ℕ} {h : Heap} {live : List (U32 × U32)} {bs : List Block} {n : U32}

/-- What is stored behind the header of the free chunk, or in front of the first, does not matter. -/
theorem BumpInv.congr {m : Ram} (hinv : BumpInv start arena ⟨h, live⟩ bs)
    (hm : ∀ x, start ≤ x → x < start + extent bs + 20 → m.byte (ptr x) = h.mem.byte (ptr x)) :
    BumpInv start arena ⟨{ h with mem := m }, live⟩ bs := by
  refine hinv.congr_headers ?_ fun x h1 h2 => hm x (by omega) h2
  rintro w ⟨y, hy, k, hk, rfl⟩
  have hy' := position_bounds hy
  rw [sizeofMemoryChunk] at hk
  exact hm _ (by omega) (by omega)

/-- Nor does what is stored to the last block. -/
theorem BumpInv.congr_last {m : Ram} {b : Block} (hinv : BumpInv start arena ⟨h, live⟩ (bs ++ [b]))
    (hm : ∀ x, start ≤ x → x < start + extent (bs ++ [b]) + 20 →
      (x < start + extent bs + 20 ∨ start + extent bs + 20 + b.size ≤ x) → m.byte (ptr x) = h.mem.byte (ptr x)) :
    BumpInv start arena ⟨{ h with mem := m }, live⟩ (bs ++ [b]) := by
  have hspan : extent (bs ++ [b]) = extent bs + (20 + b.size) := by
    rw [extent_append, extent_cons, extent_nil, Block.span_eq, Nat.add_zero]
  refine hinv.congr_headers (fun w hw => ?_) fun x h1 h2 => hm x (by omega) h2 (Or.inr (by omega))
  obtain ⟨x, h1, h2, rfl⟩ := hw.concat
  exact hm x h1 (by omega) (Or.inl h2)

/-- A request with room for the header behind it. -/
theorem BumpInv.malloc_room (hinv : BumpInv start arena ⟨h, live⟩ bs) (hpos : 0 < start)
    (hfit : start + arena ≤ 2 ^ 32) (hroom : extent bs + n.toNat + 41 ≤ arena) (harena : arena + 20 ≤ 2 ^ 32) :
    ∃ h', h.malloc n = some (ptr (start + extent bs + 20), h') ∧
      BumpInv start arena ⟨h', (ptr (start + extent bs + 20), n) :: live⟩ (bs ++ [⟨n.toNat, true⟩]) ∧
      ∀ x < 2 ^ 32, x < start ∨ start + arena ≤ x → h'.mem.byte (ptr x) = h.mem.byte (ptr x) := by
  have hnowrap : NoWrap h n := by
    unfold NoWrap
    rw [hinv.used_eq]
    omega
  have hmalloc := hinv.malloc_eq hpos hfit hnowrap
  rw [if_pos (by omega)] at hmalloc
  refine ⟨_, hmalloc, hinv.split hpos hfit harena (by omega), fun x hx hout => ?_⟩
  rw [hinv.split_mem (by omega), byte_takeChunk (by omega) (by omega) (by omega),
    byte_writeTemp (by omega) (by omega) (by omega)]

end Bump

open ATA

variable {σ : Type} {bus : PortBus σ} {s s' : DiskState σ} {ata : ATA} {start size : U32} {bs : List Block} {fuel : ℕ}
  {c : DiskRead} {k : ℕ}

/-- The heap is a row of blocks that are handed out. -/
def HeapRow (start size : U32) (s : DiskState σ) (bs : List Block) : Prop :=
  ∃ live, BumpInv start.toNat size.toNat ⟨s.heap, live⟩ bs

/-- An arena that does not wrap around, and a heap in it. -/
structure ArenaFits (start size : U32) : Prop where
  start_ne : start ≠ nullptr
  fits : start.toNat + size.toNat ≤ 2 ^ 32
  room : size.toNat + 20 ≤ 2 ^ 32

theorem ArenaFits.start_pos (h : ArenaFits start size) : 0 < start.toNat :=
  Nat.pos_of_ne_zero fun hzero => h.start_ne (BitVec.eq_of_toNat_eq hzero)

theorem mem_heapArena_ptr {x : ℕ} (hx : x < 2 ^ 32) :
    ptr x ∈ heapArena start size ↔ start.toNat ≤ x ∧ x < start.toNat + size.toNat := by
  rw [heapArena, Set.mem_ofPred_eq, toNat_ptr_of_lt hx]

/-- A request with room for the header behind it. -/
theorem HeapRow.malloc (hrow : HeapRow start size s bs) (hfits : ArenaFits start size) {n : U32}
    (hroom : extent bs + n.toNat + 41 ≤ size.toNat) :
    ∃ h', s.heap.malloc n = some (ptr (start.toNat + extent bs + 20), h') ∧
      HeapRow start size { s with heap := h' } (bs ++ [⟨n.toNat, true⟩]) ∧
      ∀ x ∉ heapArena start size, h'.mem.byte x = s.heap.mem.byte x := by
  obtain ⟨live, hinv⟩ := hrow
  obtain ⟨h', hmalloc, hinv', hframe⟩ := hinv.malloc_room hfits.start_pos hfits.fits hroom hfits.room
  refine ⟨h', hmalloc, ⟨_, hinv'⟩, fun x hx => ?_⟩
  have hbyte := hframe x.toNat x.isLt (by
    rw [heapArena, Set.mem_ofPred_eq] at hx
    omega)
  rwa [ptr_toNat] at hbyte

/-- The heap gives a fresh buffer for a sector. -/
theorem HeapRow.kmallocFresh (hrow : HeapRow start size s bs) (hfits : ArenaFits start size)
    (hroom : extent bs + 553 ≤ size.toNat) : KmallocFresh (heapArena start size) s.heap := by
  have hsector : ATA_SECTOR_SIZE.toNat = 512 := rfl
  obtain ⟨h', hmalloc, -, hframe⟩ := hrow.malloc hfits (n := ATA_SECTOR_SIZE) (by omega)
  refine ⟨_, h', hmalloc, fun i hi => ?_, hframe⟩
  have hfit := hfits.fits
  rw [ptr_add_cast, mem_heapArena_ptr (by omega)]
  omega

/-- Stores outside the heap. -/
theorem HeapRow.congr (hrow : HeapRow start size s bs) (hfits : ArenaFits start size)
    (hroom : extent bs + 20 ≤ size.toNat) {m : Ram} (hm : ∀ x ∈ heapArena start size, m.byte x = s.heap.mem.byte x) :
    HeapRow start size { s with heap := { s.heap with mem := m } } bs := by
  obtain ⟨live, hinv⟩ := hrow
  have hfit := hfits.fits
  refine ⟨live, hinv.congr fun x h1 h2 => hm _ ?_⟩
  rw [mem_heapArena_ptr (by omega)]
  omega

/-! ## A sector -/

theorem byte_readWords_of_ne {x : U32} (d : σ) (mem : Ram) (buf : U32) {i : ℕ} {left : ℕ}
    (hx : ∀ j : ℕ, i ≤ j → j < i + 2 * left → x ≠ buf + (j : U32)) :
    (ata.readWords bus d mem buf (i : U32) left).2.byte x = mem.byte x := by
  induction left generalizing d mem i with
  | zero => rfl
  | succ left ih =>
    have hi1 : ((i : ℕ) : U32) + 1 = ((i + 1 : ℕ) : U32) := (BitVec.ofNat_add ..).symm
    have hi2 : ((i : ℕ) : U32) + 2 = ((i + 2 : ℕ) : U32) := (BitVec.ofNat_add ..).symm
    rw [ATA.readWords, hi2, ih _ _ fun j h1 h2 => hx j (by omega) (by omega), hi1,
      Memory.byte_store8_of_ne (hx _ (by omega) (by omega)), Memory.byte_store8_of_ne (hx _ le_rfl (by omega))]

/-- A sector's buffer is the next block, and the data is stored to it. -/
theorem HeapRow.readSector (hrow : HeapRow start size s bs) (hfits : ArenaFits start size)
    (hroom : extent bs + 553 ≤ size.toNat) {lba ret : U32}
    (hread : ata.readSector bus fuel lba s = some (ret, s')) : HeapRow start size s' (bs ++ [⟨512, true⟩]) := by
  have hsector : ATA_SECTOR_SIZE.toNat = 512 := rfl
  have hfit := hfits.fits
  obtain ⟨h', hmalloc, ⟨live, hinv⟩, -⟩ := hrow.malloc hfits (n := ATA_SECTOR_SIZE) (by omega)
  unfold ATA.readSector at hread
  rw [hmalloc] at hread
  simp only [Option.bind_eq_bind, Option.bind_some] at hread
  obtain ⟨d, -, hread⟩ := Option.bind_eq_some_iff.mp hread
  obtain ⟨rfl, rfl⟩ := Prod.mk.inj (Option.some.inj hread)
  rw [hsector] at hinv
  have hspan : extent (bs ++ [⟨512, true⟩]) = extent bs + 532 := by
    rw [extent_append, extent_cons, extent_nil, Block.span_mk]
  refine ⟨live, hinv.congr_last fun x h1 h2 hout => ?_⟩
  have hbyte : (ata.readWords bus d h'.mem (ptr (start.toNat + extent bs + 20)) ((0 : ℕ) : U32) 256).2.byte (ptr x) =
      h'.mem.byte (ptr x) := by
    refine byte_readWords_of_ne d h'.mem _ fun j _ hj heq => ?_
    rw [ptr_add_cast, ptr_inj (by omega) (by omega)] at heq
    simp only at hout
    omega
  rw [show ((0 : ℕ) : U32) = 0 from rfl] at hbyte
  exact hbyte

/-! ## A read -/

theorem HeapRow.copySector (hrow : HeapRow start size s bs) (hfits : ArenaFits start size)
    (hroom : extent bs + 20 ≤ size.toNat) (h : c.NoWrap) (hk : c.HasRound k)
    (hbuf : ∀ i : ℕ, i < c.size.toNat → c.buf + (i : U32) ∉ heapArena start size) (ret : U32) :
    HeapRow start size (copySector (SectorRange.of c.offset c.size) (c.counter k) (c.cursor k) ret s) bs := by
  have hread := h.toNat_readSize hk
  have hle := c.copied_le (k + 1)
  have hmono := c.copied_mono k
  refine hrow.congr hfits hroom fun x hx => ?_
  refine byte_memcpy_of_ne fun b hb heq => hbuf (c.copied k + b) (by omega) ?_
  rw [← c.cursor_add, ← heq]
  exact hx

theorem extent_sectors (bs : List Block) (k : ℕ) :
    extent (bs ++ List.replicate k ⟨512, true⟩) = extent bs + 532 * k := by
  induction k with
  | zero => rw [List.replicate_zero, List.append_nil, Nat.mul_zero, Nat.add_zero]
  | succ k ih =>
    rw [List.replicate_succ', ← List.append_assoc, extent_append, ih, extent_cons, extent_nil, Block.span_mk]
    omega

/-- After `k` rounds, `k` blocks more are handed out. -/
theorem HeapRow.rounds (hrow : HeapRow start size s bs) (hfits : ArenaFits start size) (hc : c.Valid)
    (hroom : extent bs + 532 * c.sectors + 21 ≤ size.toNat)
    (hbuf : ∀ i : ℕ, i < c.size.toNat → c.buf + (i : U32) ∉ heapArena start size) (hk : k ≤ c.sectors) {total : U32}
    (hrun : c.rounds ata bus fuel s k = some (total, s')) :
    HeapRow start size s' (bs ++ List.replicate k ⟨512, true⟩) := by
  have hnowrap : c.NoWrap := ⟨by have := hc.1; omega, hc.2⟩
  have hrule := hnowrap.rounds_rule (P := fun j s' => HeapRow start size s' (bs ++ List.replicate j ⟨512, true⟩))
    (by rwa [List.replicate_zero, List.append_nil]) (fun j s1 s2 ret hround hP hsector => ?_) hrun
  · obtain ⟨j, hjk, hmore, -, hP⟩ := hrule
    obtain rfl : j = k := by
      by_contra hne
      exact hmore (by omega) (hc.hasRound_iff.mpr (by omega))
    exact hP
  · have hj := hc.hasRound_iff.mp hround
    have hnext := hP.readSector hfits (by rw [extent_sectors]; omega) hsector
    rw [List.append_assoc, ← List.replicate_succ'] at hnext
    exact hnext.copySector hfits (by rw [extent_sectors]; omega) hnowrap hround hbuf ret

/-- As long as there is room, each round gets a fresh buffer. -/
theorem HeapRow.rounds_fresh (hrow : HeapRow start size s bs) (hfits : ArenaFits start size) (hc : c.Valid)
    (hroom : extent bs + 532 * c.sectors + 21 ≤ size.toNat)
    (hbuf : ∀ i : ℕ, i < c.size.toNat → c.buf + (i : U32) ∉ heapArena start size) (fuel k : ℕ) (total : U32)
    (s' : DiskState σ) (hk : k < c.sectors) (hrun : c.rounds ata bus fuel s k = some (total, s')) :
    KmallocFresh (heapArena start size) s'.heap := by
  refine (hrow.rounds hfits hc hroom hbuf (by omega) hrun).kmallocFresh hfits ?_
  rw [extent_sectors]
  omega

/-! ## The whole request -/

section Read

variable {portBase : U16} {master : Bool} {disk : ℕ → U8} {arena : Set U32}

/-- `read` is its rounds. -/
theorem DiskRead.Valid.read_of_rounds (hc : c.Valid)
    (hrounds : c.rounds ata bus fuel s c.sectors = some (BitVec.ofNat 32 (c.copied c.sectors), s')) :
    ata.read bus fuel c.file c.offset c.size c.buf s = some (c.size, s') := by
  have hread : c.rounds ata bus fuel s ATA.sectors = some (c.size, s') := by
    rw [hc.rounds_of_le hc.sectors.2, hrounds, hc.copied_sectors, BitVec.ofNat_toNat, BitVec.setWidth_eq]
  exact hread

/-- A read returns the size of the request, with the bytes of the disk in the caller's buffer and nothing else
    written outside the heap. -/
theorem read_exact (drive : Drive (ATA.new portBase master) bus disk) (hc : c.Valid)
    (hbuf : ∀ i : ℕ, i < c.size.toNat → c.buf + (i : U32) ∉ arena)
    (hfresh : ∀ fuel k total s', k < c.sectors →
      c.rounds (ATA.new portBase master) bus fuel s k = some (total, s') → KmallocFresh arena s'.heap) :
    ∃ s' n, (∀ fuel, n ≤ fuel →
        (ATA.new portBase master).read bus fuel c.file c.offset c.size c.buf s = some (c.size, s')) ∧
      (∀ i : ℕ, i < c.size.toNat → s'.heap.mem.byte (c.buf + (i : U32)) = disk (c.offset.toNat + i)) ∧
      ∀ x ∉ arena, (∀ i : ℕ, i < c.size.toNat → x ≠ c.buf + (i : U32)) →
        s'.heap.mem.byte x = s.heap.mem.byte x := by
  obtain ⟨s', n, hrounds, hcopied⟩ := drive.rounds_copied hc hbuf hfresh le_rfl
  obtain ⟨hbytes, hframe⟩ := hcopied
  rw [hc.copied_sectors] at hbytes hframe
  exact ⟨s', n, fun fuel hfuel => hc.read_of_rounds (hrounds fuel hfuel), hbytes, hframe⟩

end Read

/-! ## A drive and a heap -/

theorem HeapRow.init (hfits : ArenaFits start size) (hsize : 20 ≤ size.toNat) (mem : Ram) (device : σ) :
    HeapRow start size ⟨device, Heap.init mem start size, [], []⟩ [] :=
  ⟨[], BumpInv.new hsize hfits.start_ne hfits.fits⟩

theorem notMem_kernelArena {x : U32} (hx : x.toNat < 0xC0400000) :
    x ∉ heapArena KERNEL_HEAP_START KERNEL_HEAP_SIZE := fun h => absurd h.1 (Nat.not_le.mpr hx)

/-- What is behind the ports of a drive that is always ready: registers and a queue. -/
def readyBus (ata : ATA) (disk : ℕ → U8) : PortBus ((U16 → U8) × List U16) where
  outb d p v := (Function.update d.1 p v,
    if p = ata.commandPort ∧ v = 0x20 then sectorWords disk (ata.lba28 d.1).toNat else d.2)
  inb d _ := (0x50, d)
  inw d _ := (d.2.headD 0, d.1, d.2.tail)

def readyDisk (ata : ATA) (disk : ℕ → U8) : Drive ata (readyBus ata disk) disk where
  reg := Prod.fst
  queue := Prod.snd
  busyFor _ := 0
  reg_outb _ _ _ := Function.update_self ..
  reg_outb_of_ne _ _ _ _ h := Function.update_of_ne h ..
  queue_command _ _ := if_pos ⟨rfl, rfl⟩
  queue_inb _ := rfl
  busyFor_inb _ h := absurd h (show ¬ busy 0x50 = true by decide)
  inw_data d w ws h := by
    dsimp only [readyBus]
    rw [h]
    exact ⟨rfl, rfl⟩

/-- The last byte of the first sector and the first one of the second. -/
def sectorBoundary : DiskRead where
  offset := 511
  size := 2
  buf := 0x300000

theorem read_exact_boundary : ∃ s' n, (∀ fuel, n ≤ fuel →
      (ATA.new 0x1F0 true).read (readyBus (ATA.new 0x1F0 true) fun a => BitVec.ofNat 8 a) fuel nullptr 511 2 0x300000
        ⟨(fun _ => 0, []), Heap.init { byte := fun _ => 0 } KERNEL_HEAP_START KERNEL_HEAP_SIZE, [], []⟩ =
          some (2, s')) ∧
    (∀ i : ℕ, i < 2 → s'.heap.mem.byte (0x300000 + (i : U32)) = BitVec.ofNat 8 (511 + i)) ∧
    ∀ x ∉ heapArena KERNEL_HEAP_START KERNEL_HEAP_SIZE, (∀ i : ℕ, i < 2 → x ≠ 0x300000 + (i : U32)) →
      s'.heap.mem.byte x =
        (Heap.init { byte := fun _ => 0 } KERNEL_HEAP_START KERNEL_HEAP_SIZE).mem.byte x := by
  have hfits : ArenaFits KERNEL_HEAP_START KERNEL_HEAP_SIZE := ⟨by decide, by decide, by decide⟩
  have hvalid : sectorBoundary.Valid := ⟨by decide, by decide⟩
  have hbuf : ∀ i : ℕ, i < sectorBoundary.size.toNat →
      sectorBoundary.buf + (i : U32) ∉ heapArena KERNEL_HEAP_START KERNEL_HEAP_SIZE := by
    intro i hi
    have hi' : i < 2 := hi
    refine notMem_kernelArena ?_
    show (0x300000 + BitVec.ofNat 32 i : U32).toNat < 0xC0400000
    rw [BitVec.toNat_add, BitVec.toNat_ofNat, show (0x300000 : U32).toNat = 0x300000 from rfl]
    omega
  have hrow := HeapRow.init hfits (by decide) { byte := fun _ => 0 } ((fun _ => 0, []) : (U16 → U8) × List U16)
  exact read_exact (readyDisk (ATA.new 0x1F0 true) fun a => BitVec.ofNat 8 a) hvalid hbuf
    (hrow.rounds_fresh hfits hvalid (by decide) hbuf)

end Pros
