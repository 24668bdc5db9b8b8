import Pros.Driver.Proofs.ChannelProofs
import Pros.FS.DiskFiles
import Pros.FS.Proofs.MountPrefixProofs
import Pros.FS.Proofs.OpenFileProofs

/-!
# Proofs: files on disks

A disk has no directories, so that a lookup below it finds nothing. What `openFile` gives is then known exactly, and
a file that was mounted can be read to the last byte.
-/

namespace Pros

open VFS

variable {F σ : Type} {deref : F → VFSNode ATA} {s : DiskState σ} {c : MountClient F} {p : CString}
  {l : List CString} {f : F}

theorem findDirectory_ata (node : Option F) (name : CString) (s : DiskState σ) :
    VFS.findDirectory deref ataFind node name s = (none, s) := by
  unfold VFS.findDirectory
  split
  · rfl
  · split_ifs
    · split <;> rfl
    · rfl

theorem lookup_ata (node : Option F) {cs : List CString} (hcs : cs ≠ []) (s : DiskState σ) :
    lookup deref ataFind node cs s = (none, s) := by
  cases cs with
  | nil => exact absurd rfl hcs
  | cons name cs => rw [lookup, findDirectory_ata]

theorem MountInv.open_disk {path : ℕ → List CString} (h : MountInv c path) (hp : Normalised p)
    (hl : LongestEntry c.calls (tok p) l) (deref : F → VFSNode ATA) (s : DiskState σ) :
    openFile deref ataFind c.vfs p s =
      (if p ≠ [slash] ∧ (tok p).length ≤ l.length + 1 then lastFile c.calls l else none, s) := by
  by_cases hne : p = [slash]
  · rw [hne, openFile_root, lookup_ata _ (List.cons_ne_nil _ _), if_neg fun hroot => hroot.1 rfl]
  · obtain ⟨hp, hcomps⟩ := hp.resolve_left hne
    obtain ⟨l', rest, htok, hl', he, -⟩ := h.leaves hcomps
    obtain rfl := hl.unique hl'
    obtain ⟨l', hlong, -, hfile⟩ := h.resolves p
    obtain rfl := hl.unique hlong
    have hlen : (tok p).length ≤ l.length + 1 ↔ rest.length ≤ 1 := by
      rw [htok, List.length_append, Nat.add_le_add_iff_left]
    rw [h.openFile_eq hp hcomps hne htok he, hfile]
    by_cases hrest : rest.length ≤ 1
    · rw [if_pos hrest, if_pos ⟨hne, hlen.mpr hrest⟩]
    · rw [if_neg hrest, if_neg fun hshort => hrest (hlen.mp hshort.2), lookup_ata _ (List.cons_ne_nil _ _)]

/-- With disks only, `openFile` gives the file of the longest prefix of the path that has an entry, if at most one
    component is left behind it; otherwise it fails, and it fails for the root. -/
theorem open_disk_eq {ops : List (CString × F)} (hrun : Run MountClient.Step .new ops c) (hp : Normalised p)
    (hl : LongestEntry c.calls (tok p) l) (deref : F → VFSNode ATA) (s : DiskState σ) :
    openFile deref ataFind c.vfs p s =
      (if p ≠ [slash] ∧ (tok p).length ≤ l.length + 1 then lastFile c.calls l else none, s) := by
  obtain ⟨path, h⟩ := MountInv.new.run hrun
  exact h.open_disk hp hl deref s

/-- A component behind a mounted disk is ignored. -/
theorem open_disk_eq_below : ∃ c : MountClient Bool, Run MountClient.Step .new [([slash, letterA], true)] c ∧
    openFile (fun _ => ⟨0, some (ATA.new 0x1F0 true)⟩) ataFind c.vfs [slash, letterA, slash, letterA] diskBoot =
      (some true, diskBoot) := by
  have hrun : Run (MountClient.Step (F := Bool)) .new [([slash, letterA], true)] _ :=
    .snoc ([slash, letterA], true) .nil ⟨rfl, rfl⟩
  refine ⟨_, hrun, ?_⟩
  have htok : tok [slash, letterA, slash, letterA] = [[letterA], [letterA]] := by decide
  have htok' : tok [slash, letterA] = [[letterA]] := by decide
  have hlongest : LongestEntry [([slash, letterA], true, true)] (tok [slash, letterA, slash, letterA]) [[letterA]] := by
    refine ⟨by rw [htok]; exact ⟨[[letterA]], rfl⟩, Or.inr ⟨_, List.mem_singleton_self _, ?_⟩, fun l' _ hentry => ?_⟩
    · rw [htok']
    · rcases hentry with rfl | ⟨x, hx, hl'⟩
      · exact List.nil_prefix
      · obtain rfl := List.mem_singleton.mp hx
        rwa [htok'] at hl'
  exact open_disk_eq hrun (Or.inr ⟨rfl, by decide⟩) hlongest _ diskBoot

variable {bus : PortBus σ} {disk : Bool → ℕ → U8} {portBase : U16} {start size text : U32}

/-- A disk that was mounted last at a path, whatever else was mounted and read, can be opened there and read: the
    bytes are its own, and nothing else changes outside the heap. -/
theorem mounted_disk_reads (channel : ∀ master, Drive (ATA.new portBase master) bus (disk master))
    (hfits : ArenaFits start size) (htext : text ∉ heapArena start size ∧ text + 1 ∉ heapArena start size)
    (mem : Ram) (device : σ) {mounts : List (CString × F)} (hrun : Run MountClient.Step .new mounts c)
    (hp : Normalised p) (hne : p ≠ [slash]) (hmount : lastFile c.calls (tok p) = some f) {master : Bool}
    (hf : (deref f).storage = some (ATA.new portBase master)) (address : F → U32) {r : DiskRead}
    {ops : List ChannelOp} (hops : ∀ op ∈ ops ++ [ChannelOp.read master r], op.Allowed (heapArena start size))
    (hroom : ((ops ++ [ChannelOp.read master r]).map ChannelOp.cost).sum + 21 ≤ size.toNat) :
    ∃ s s' n, (∀ fuel, n ≤ fuel →
        ChannelOp.performAll portBase bus fuel text ⟨device, Heap.init mem start size, [], []⟩ ops = some s ∧
        VFS.read deref (ataRead address bus fuel) f r.offset r.size r.buf s = some (r.size, s')) ∧
      openFile deref ataFind c.vfs p s = (some f, s) ∧
      (∀ i : ℕ, i < r.size.toNat → s'.heap.mem.byte (r.buf + (i : U32)) = disk master (r.offset.toNat + i)) ∧
      ∀ x ∉ heapArena start size, (∀ i : ℕ, i < r.size.toNat → x ≠ r.buf + (i : U32)) →
        s'.heap.mem.byte x = s.heap.mem.byte x := by
  obtain ⟨path, h⟩ := MountInv.new.run hrun
  have hentry : HasEntry c.calls (tok p) := (lastFile_ne_none.mp (by rw [hmount]; exact Option.some_ne_none f)).hasEntry
  have hlongest : LongestEntry c.calls (tok p) (tok p) := ⟨List.prefix_rfl, hentry, fun _ hl _ => hl⟩
  rw [List.map_append, List.sum_append, List.map_singleton, List.sum_singleton] at hroom
  obtain ⟨s, n, bs, hperform, hrow, hextent⟩ := (HeapRow.init hfits (by omega) mem device).performAll channel hfits
    htext (fun op hop => hops op (List.mem_append_left _ hop)) (by rw [extent_nil]; omega)
  obtain ⟨hvalid, hbuf⟩ := hops (.read master r) (List.mem_append_right _ (List.mem_singleton_self _))
  rw [extent_nil] at hextent
  obtain ⟨s', m, hread, -, hbytes, hframe⟩ := (channel master).read_room hrow hfits hvalid hbuf
    (by dsimp only [ChannelOp.cost] at hroom; omega)
  refine ⟨s, s', max n m, fun fuel hfuel => ⟨hperform fuel (by omega), ?_⟩, ?_, hbytes, hframe⟩
  · unfold VFS.read
    rw [hf]
    exact hread fuel (by omega)
  · rw [h.open_disk hp hlongest, if_pos ⟨hne, Nat.le_succ _⟩, hmount]

/-- The slave, mounted and read as in `kmain`. -/
theorem mounted_disk_reads_slave : ∃ c : MountClient Bool, Run MountClient.Step .new [([slash, letterA], true)] c ∧
    ∃ s s' n, (∀ fuel, n ≤ fuel →
      ChannelOp.performAll 0x1F0 (readyChannelBus 0x1F0 fun master a => if master then 0 else BitVec.ofNat 8 a) fuel
        0xC0101000 ⟨(fun _ => 0, []), Heap.init { byte := fun _ => 0 } KERNEL_HEAP_START KERNEL_HEAP_SIZE, [], []⟩
        [.identify true, .identify false, .kmalloc 264] = some s ∧
      VFS.read (fun _ : Bool => ⟨0, some (ATA.new 0x1F0 false)⟩) (ataRead (fun _ => 0xC0400100)
        (readyChannelBus 0x1F0 fun master a => if master then 0 else BitVec.ofNat 8 a) fuel) true 0 512 0x300000 s =
        some (512, s')) ∧
    openFile (fun _ : Bool => ⟨0, some (ATA.new 0x1F0 false)⟩) ataFind c.vfs [slash, letterA] s = (some true, s) ∧
    (∀ i : ℕ, i < 512 → s'.heap.mem.byte (0x300000 + (i : U32)) = BitVec.ofNat 8 (0 + i)) ∧
    ∀ x ∉ heapArena KERNEL_HEAP_START KERNEL_HEAP_SIZE, (∀ i : ℕ, i < 512 → x ≠ 0x300000 + (i : U32)) →
      s'.heap.mem.byte x = s.heap.mem.byte x := by
  have hrun : Run (MountClient.Step (F := Bool)) .new [([slash, letterA], true)] _ :=
    .snoc ([slash, letterA], true) .nil ⟨rfl, rfl⟩
  have hops : ∀ op ∈ [ChannelOp.identify true, .identify false, .kmalloc 264] ++ [.read false slaveSector],
      op.Allowed (heapArena KERNEL_HEAP_START KERNEL_HEAP_SIZE) := by
    simp only [List.cons_append, List.nil_append, List.forall_mem_cons]
    exact ⟨trivial, trivial, trivial, slaveSector_allowed false, fun _ hnil => absurd hnil List.not_mem_nil⟩
  exact ⟨_, hrun, mounted_disk_reads (r := slaveSector)
    (readyChannel 0x1F0 fun master a => if master then 0 else BitVec.ofNat 8 a)
    ⟨by decide, by decide, by decide⟩ ⟨notMem_kernelArena (by decide), notMem_kernelArena (by decide)⟩
    { byte := fun _ => 0 } (fun _ => 0, []) hrun (Or.inr ⟨rfl, by decide⟩) (by decide) rfl rfl
    (fun _ => 0xC0400100) hops (by decide)⟩

end Pros
