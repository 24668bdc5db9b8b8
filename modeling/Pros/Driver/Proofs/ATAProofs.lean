import Pros.Driver.DiskClient
import Pros.MM.Proofs.HeapAccountProofs

/-!
# Every sector read is taken from the kernel's heap

A sector's buffer is either null or adds to the counter of the heap, and a call reads at least one sector. So
no call keeps the heap (`disk_reads_keep_heap_iff`).
-/

namespace Pros

open ATA

variable {σ : Type} {ata : ATA} {bus : PortBus σ} {fuel left k l : ℕ} {lba buf counter cur total n : U32}
  {r : SectorRange} {s s' s'' : DiskState σ} {bs cs : List U32} {c : DiskRead} {ops : List DiskRead}

/-! ## Sectors -/

/-- Reading `k` sectors, with the buffers `bs`: the counter of the heap grows with every one that is not
    null. -/
structure SectorsRead (s s' : DiskState σ) (k : ℕ) (bs : List U32) : Prop where
  buffers_eq : s'.buffers = bs ++ s.buffers
  length_eq : bs.length = k
  memorySize_eq : s'.heap.memorySize = s.heap.memorySize
  used_eq : nullptr ∉ bs → s'.heap.usedMemory = s.heap.usedMemory + BitVec.ofNat 32 (532 * k)
  room : nullptr ∉ bs → s.heap.memorySize.toNat + 532 < 2 ^ 32 →
    s.heap.usedMemory.toNat ≤ s.heap.memorySize.toNat →
    s.heap.usedMemory.toNat + 532 * k ≤ s.heap.memorySize.toNat

theorem SectorsRead.refl (s : DiskState σ) : SectorsRead s s 0 [] :=
  ⟨rfl, rfl, rfl, fun _ => (BitVec.add_zero _).symm, fun _ _ h => h⟩

/-- As long as the guard of the heap is computed without wrapping, so is the counter. -/
theorem SectorsRead.toNat_used (h : SectorsRead s s' k bs) (hnull : nullptr ∉ bs)
    (hsize : s.heap.memorySize.toNat + 532 < 2 ^ 32)
    (hused : s.heap.usedMemory.toNat ≤ s.heap.memorySize.toNat) :
    s'.heap.usedMemory.toNat = s.heap.usedMemory.toNat + 532 * k := by
  have hroom := h.room hnull hsize hused
  have hk : (BitVec.ofNat 32 (532 * k)).toNat = 532 * k := by
    rw [BitVec.toNat_ofNat]
    omega
  rw [h.used_eq hnull, BitVec.toNat_add_of_lt (by omega), hk]

theorem SectorsRead.trans (h : SectorsRead s s' k bs) (h' : SectorsRead s' s'' l cs) :
    SectorsRead s s'' (k + l) (cs ++ bs) := by
  refine ⟨?_, ?_, h'.memorySize_eq.trans h.memorySize_eq, fun hnull => ?_, fun hnull hsize hused => ?_⟩
  · rw [h'.buffers_eq, h.buffers_eq, List.append_assoc]
  · rw [List.length_append, h'.length_eq, h.length_eq, Nat.add_comm]
  · rw [List.mem_append, not_or] at hnull
    rw [h'.used_eq hnull.1, h.used_eq hnull.2, BitVec.add_assoc, ← BitVec.ofNat_add, Nat.mul_add]
  · rw [List.mem_append, not_or] at hnull
    have hfirst := h.room hnull.2 hsize hused
    have hused' := h.toNat_used hnull.2 hsize hused
    have hrest := h'.room hnull.1
    rw [h.memorySize_eq, hused'] at hrest
    have hall := hrest hsize hfirst
    omega

/-- One sector. -/
theorem readSector_heap (h : ata.readSector bus fuel lba s = some (buf, s')) : SectorsRead s s' 1 [buf] := by
  unfold readSector at h
  obtain ⟨⟨p, heap⟩, hm, h⟩ := Option.bind_eq_some_iff.mp h
  obtain ⟨d, -, h⟩ := Option.bind_eq_some_iff.mp h
  obtain ⟨rfl, rfl⟩ := Prod.mk.inj (Option.some.inj h)
  rcases malloc_usage hm with ⟨rfl, rfl⟩ | ⟨hguard, hsize, hused⟩
  · have hmem : nullptr ∈ [nullptr] := List.mem_singleton_self _
    exact ⟨rfl, rfl, rfl, fun hnull => absurd hmem hnull, fun hnull => absurd hmem hnull⟩
  · refine ⟨rfl, rfl, hsize, fun _ => hused, fun _ hM hle => ?_⟩
    have h532 : (ATA_SECTOR_SIZE + 20).toNat = 532 := rfl
    have hsum : (s.heap.usedMemory + ATA_SECTOR_SIZE + 20).toNat = s.heap.usedMemory.toNat + 532 := by
      rw [BitVec.add_assoc, BitVec.toNat_add_of_lt (by omega), h532]
    rw [Heap.outOfMemory, decide_eq_false_iff_not, ge_iff_le, BitVec.le_def, hsum] at hguard
    omega

/-- The loop of `read` reads the sectors that are left. -/
theorem readLoop_heap (hend : r.endSector.toNat < sectors)
    (hleft : r.endSector.toNat + 1 ≤ counter.toNat + left)
    (h : ata.readLoop bus fuel r counter cur total s left = some (n, s')) :
    ∃ bs, SectorsRead s s' (r.endSector.toNat + 1 - counter.toNat) bs := by
  induction left generalizing counter cur total s with
  | zero =>
    obtain ⟨-, rfl⟩ := Prod.mk.inj (Option.some.inj h)
    rw [Nat.sub_eq_zero_of_le (show r.endSector.toNat + 1 ≤ counter.toNat from hleft)]
    exact ⟨[], .refl s⟩
  | succ left ih =>
    rw [readLoop] at h
    split_ifs at h with hle
    · obtain ⟨⟨ret, s1⟩, hsector, hrest⟩ := Option.bind_eq_some_iff.mp h
      rw [BitVec.le_def] at hle
      have hnext : (counter + 1).toNat = counter.toNat + 1 := by
        unfold sectors at hend
        rw [BitVec.toNat_add]
        exact Nat.mod_eq_of_lt (show counter.toNat + 1 < 2 ^ 32 by omega)
      obtain ⟨bs, hbs⟩ := ih (by omega) hrest
      have hcopy : SectorsRead s (copySector r counter cur ret s1) 1 [ret] := by
        obtain ⟨h1, h2, h3, h4, h5⟩ := readSector_heap hsector
        exact ⟨h1, h2, h3, h4, h5⟩
      have hall := hcopy.trans hbs
      rw [hnext, show 1 + (r.endSector.toNat + 1 - (counter.toNat + 1)) =
        r.endSector.toNat + 1 - counter.toNat by omega] at hall
      exact ⟨_, hall⟩
    · obtain ⟨-, rfl⟩ := Prod.mk.inj (Option.some.inj h)
      rw [BitVec.le_def, Nat.not_le] at hle
      rw [Nat.sub_eq_zero_of_le hle]
      exact ⟨[], .refl s⟩

/-! ## Calls -/

theorem endSector_lt (offset size : U32) : (SectorRange.of offset size).endSector.toNat < sectors := by
  have hlt := (offset + size - 1).isLt
  rw [SectorRange.of, BitVec.toNat_udiv, show ATA_SECTOR_SIZE.toNat = 512 from rfl]
  unfold sectors
  omega

/-- The sectors of a request, by position. -/
theorem DiskRead.Valid.range (h : c.Valid) :
    (SectorRange.of c.offset c.size).start.toNat = c.offset.toNat / 512 ∧
      (SectorRange.of c.offset c.size).endSector.toNat = (c.offset.toNat + c.size.toNat - 1) / 512 := by
  obtain ⟨h1, h2⟩ := h
  have h512 : ATA_SECTOR_SIZE.toNat = 512 := rfl
  have hlast : (c.offset + c.size - 1).toNat = c.offset.toNat + c.size.toNat - 1 := by
    have hone : (1 : U32).toNat = 1 := rfl
    rw [BitVec.toNat_sub, BitVec.toNat_add, hone]
    have hsize := c.size.isLt
    omega
  rw [SectorRange.of, BitVec.toNat_udiv, BitVec.toNat_udiv, hlast, h512]
  exact ⟨rfl, rfl⟩

theorem DiskRead.Valid.sectors (h : c.Valid) : 1 ≤ c.sectors ∧ c.sectors ≤ ATA.sectors := by
  obtain ⟨h1, h2⟩ := h
  unfold DiskRead.sectors ATA.sectors
  omega

/-- A call reads the sectors of its request. -/
theorem diskStep_heap (h : DiskStep ata bus s c s') : SectorsRead s.freshLog s' c.sectors s'.buffers := by
  obtain ⟨hvalid, fuel, total, hread⟩ := h
  obtain ⟨hstart, hend⟩ := hvalid.range
  obtain ⟨bs, hbs⟩ := readLoop_heap (endSector_lt _ _) (by
    have := endSector_lt c.offset c.size
    omega) hread
  have hlog : s'.buffers = bs := hbs.buffers_eq.trans (List.append_nil bs)
  rw [hlog]
  rwa [hstart, hend] at hbs

/-- No call keeps the heap. -/
theorem not_keepsHeap (h : DiskStep ata bus s c s') : ¬ KeepsHeap s s' := by
  rintro ⟨husage, hnull⟩
  obtain ⟨hge, hle⟩ := h.1.sectors
  have hused := (diskStep_heap h).used_eq hnull
  have hzero : BitVec.ofNat 32 (532 * c.sectors) = 0 := BitVec.add_right_eq_self.mp (hused.symm.trans husage)
  have hnat := congrArg BitVec.toNat hzero
  rw [BitVec.toNat_ofNat, show (0 : U32).toNat = 0 from rfl] at hnat
  -- 2 ^ 32 does not divide 532 times a number below 2 ^ 30.
  unfold ATA.sectors at hle
  omega

/-- No call of a run keeps the heap, so that it is kept in every step exactly if the run makes no call. -/
theorem disk_reads_keep_heap_iff (hrun : Run (DiskStep ata bus) s ops s') :
    ((∀ pre c s1 s2, pre ++ [c] <+: ops → Run (DiskStep ata bus) s pre s1 → DiskStep ata bus s1 c s2 →
      KeepsHeap s1 s2) ↔ ops = []) ∧
    ∀ pre c s1 s2, pre ++ [c] <+: ops → Run (DiskStep ata bus) s pre s1 → DiskStep ata bus s1 c s2 →
      ¬ KeepsHeap s1 s2 := by
  refine ⟨⟨fun hall => ?_, ?_⟩, fun pre c s1 s2 _ _ hstep => not_keepsHeap hstep⟩
  · cases ops with
    | nil => rfl
    | cons c ops =>
      have hsplit : Run (DiskStep ata bus) s ([] ++ [c] ++ ops) s' := hrun
      obtain ⟨s1, hfirst, -⟩ := Run.append_iff.mp hsplit
      obtain ⟨s0, hnil, hstep⟩ := Run.snoc_iff.mp hfirst
      exact absurd (hall [] c s0 s1 (List.prefix_append [c] ops) hnil hstep) (not_keepsHeap hstep)
  · rintro rfl pre c s1 s2 hpre
    exact absurd (List.prefix_nil.mp hpre) (List.concat_ne_nil c pre)

/-- Without a null buffer, a run takes what its sectors need, and there was room for it. -/
theorem sectors_le (hrun : Run (DiskStep ata bus) s ops s')
    (hsize : s.heap.memorySize.toNat + 532 < 2 ^ 32)
    (hused : s.heap.usedMemory.toNat ≤ s.heap.memorySize.toNat)
    (hnull : ∀ pre c s1 s2, pre ++ [c] <+: ops → Run (DiskStep ata bus) s pre s1 →
      DiskStep ata bus s1 c s2 → nullptr ∉ s2.buffers) :
    s'.heap.memorySize = s.heap.memorySize ∧
      s'.heap.usedMemory.toNat = s.heap.usedMemory.toNat + 532 * (ops.map DiskRead.sectors).sum ∧
      s'.heap.usedMemory.toNat ≤ s.heap.memorySize.toNat := by
  induction hrun with
  | nil => exact ⟨rfl, rfl, hused⟩
  | snoc c hrun hstep ih =>
    obtain ⟨hmem, hcount, hle⟩ := ih fun pre c s1 s2 hpre =>
      hnull pre c s1 s2 (hpre.trans (List.prefix_append _ _))
    have hsectors := diskStep_heap hstep
    have hbuf := hnull _ c _ _ (List.prefix_refl _) hrun hstep
    rw [← hmem] at hsize hle ⊢
    have hroom := hsectors.room hbuf hsize hle
    have hused' := hsectors.toNat_used hbuf hsize hle
    refine ⟨hsectors.memorySize_eq, ?_, hused'.trans_le hroom⟩
    rw [List.map_append, List.sum_append, List.map_singleton, List.sum_singleton, hused', Nat.mul_add,
      ← Nat.add_assoc, ← hcount]
    rfl

/-- The kernel's heap has room for the buffers of 1971 sectors at most. A run that reads more stores through
    a null pointer. -/
theorem null_buffer_of_many_sectors (hrun : Run (DiskStep ata bus) s ops s')
    (hsize : s.heap.memorySize = KERNEL_HEAP_SIZE) (hused : s.heap.usedMemory ≤ KERNEL_HEAP_SIZE)
    (hmany : 1971 < (ops.map DiskRead.sectors).sum) :
    ∃ pre c s1 s2, pre ++ [c] <+: ops ∧ Run (DiskStep ata bus) s pre s1 ∧ DiskStep ata bus s1 c s2 ∧
      nullptr ∈ s2.buffers := by
  by_contra hno
  have hM : s.heap.memorySize.toNat = 1048576 := by rw [hsize]; rfl
  rw [← hsize, BitVec.le_def] at hused
  obtain ⟨-, hcount, hle⟩ := sectors_le hrun (by omega) hused fun pre c s1 s2 hpre h1 hstep hmem =>
    hno ⟨pre, c, s1, s2, hpre, h1, hstep, hmem⟩
  omega

/-! ## The kernel's heap -/

/-- A drive that is always ready, with nothing but zeros on it. -/
def readyDrive : PortBus Unit where
  outb d _ _ := d
  inb d _ := (0, d)
  inw d _ := (0, d)

/-- The kernel's heap before anything is allocated. -/
def diskBoot : DiskState Unit where
  device := ()
  heap := kernelClient.heap

/-- Reading the first byte of the disk. -/
def firstByte : DiskRead where
  offset := 0
  size := 1
  buf := 0x300000

theorem firstByte_reads : ∃ s, DiskStep (ATA.new 0x1F0 true) readyDrive diskBoot firstByte s ∧
    s.heap.usage = 532 := by
  have hany : ((ATA.new 0x1F0 true).read readyDrive 0 nullptr 0 1 0x300000 diskBoot.freshLog).any
      fun x => decide (x.2.heap.usage = 532) := by
    decide +kernel
  obtain ⟨⟨total, s⟩, hread, husage⟩ := (Option.any_eq_true _ _).mp hany
  exact ⟨s, ⟨⟨by decide, by decide⟩, 0, total, hread⟩, of_decide_eq_true husage⟩

theorem disk_reads_first_byte : ∃ s, DiskStep (ATA.new 0x1F0 true) readyDrive diskBoot firstByte s ∧
    ¬ ∀ pre c s1 s2, pre ++ [c] <+: [firstByte] →
      Run (DiskStep (ATA.new 0x1F0 true) readyDrive) diskBoot pre s1 →
      DiskStep (ATA.new 0x1F0 true) readyDrive s1 c s2 → KeepsHeap s1 s2 := by
  obtain ⟨s, hstep, -⟩ := firstByte_reads
  have hrun := Run.snoc _ .nil hstep
  exact ⟨s, hstep, fun hall => List.cons_ne_nil _ _ ((disk_reads_keep_heap_iff hrun).1.mp hall)⟩

/-- One sector, and 532 bytes of the heap are gone. -/
theorem firstByte_consumes : ∃ s, Run (DiskStep (ATA.new 0x1F0 true) readyDrive) diskBoot [firstByte] s ∧
    diskBoot.heap.usage = 0 ∧ s.heap.usage = 532 ∧ ¬ KeepsHeap diskBoot s := by
  obtain ⟨s, hstep, husage⟩ := firstByte_reads
  have hbefore : diskBoot.heap.usage = 0 := by decide
  refine ⟨s, Run.snoc _ .nil hstep, hbefore, husage, fun hkeeps => ?_⟩
  have hsame := hkeeps.1
  rw [hbefore, husage] at hsame
  exact absurd hsame (by decide)

end Pros
