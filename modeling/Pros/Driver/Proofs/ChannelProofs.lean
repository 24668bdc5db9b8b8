import Pros.Driver.Channel
import Pros.Driver.Proofs.SectorBufferProofs

/-!
# Proofs: two drives on a channel

What a call takes from the heap is the next blocks of the row (`HeapRow.perform`). So there is room for the calls as
long as their blocks fit, and a read finds its drive as it would find it alone.
-/

namespace Pros

open ATA

variable {σ : Type} {bus : PortBus σ} {s s' : DiskState σ} {ata : ATA} {start size : U32} {bs : List Block} {fuel : ℕ}
  {c : DiskRead} {k : ℕ}

/-! ## A read -/

/-- With room for its buffers, a read gives the bytes of its drive, and the heap has as many blocks more as there are
    sectors. -/
theorem Drive.read_room {portBase : U16} {master : Bool} {disk : ℕ → U8}
    (drive : Drive (ATA.new portBase master) bus disk) (hrow : HeapRow start size s bs)
    (hfits : ArenaFits start size) (hc : c.Valid)
    (hbuf : ∀ i : ℕ, i < c.size.toNat → c.buf + (i : U32) ∉ heapArena start size)
    (hroom : extent bs + 532 * c.sectors + 21 ≤ size.toNat) :
    ∃ s' n, (∀ fuel, n ≤ fuel →
        (ATA.new portBase master).read bus fuel c.file c.offset c.size c.buf s = some (c.size, s')) ∧
      HeapRow start size s' (bs ++ List.replicate c.sectors ⟨512, true⟩) ∧
      (∀ i : ℕ, i < c.size.toNat → s'.heap.mem.byte (c.buf + (i : U32)) = disk (c.offset.toNat + i)) ∧
      ∀ x ∉ heapArena start size, (∀ i : ℕ, i < c.size.toNat → x ≠ c.buf + (i : U32)) →
        s'.heap.mem.byte x = s.heap.mem.byte x := by
  obtain ⟨s', n, hrounds, hcopied⟩ := drive.rounds_copied hc hbuf (hrow.rounds_fresh hfits hc hroom hbuf) le_rfl
  obtain ⟨hbytes, hframe⟩ := hcopied
  rw [hc.copied_sectors] at hbytes hframe
  exact ⟨s', n, fun fuel hfuel => hc.read_of_rounds (hrounds fuel hfuel),
    hrow.rounds hfits hc hroom hbuf le_rfl (hrounds n le_rfl), hbytes, hframe⟩

/-! ## `identify` -/

theorem byte_readIdentity {text x : U32} (hx : x ≠ text) (hx' : x ≠ text + 1) (d : σ) (mem : Ram) (left : ℕ) :
    (ata.readIdentity bus text d mem left).2.byte x = mem.byte x := by
  induction left generalizing d mem with
  | zero => rfl
  | succ left ih => rw [ATA.readIdentity, ih, Memory.byte_store8_of_ne hx', Memory.byte_store8_of_ne hx]

/-- `identify` returns, whatever the drive answers, and stores to its literal only. -/
theorem Drive.identify_returns {disk : ℕ → U8} (drive : Drive ata bus disk) (text : U32) (s : DiskState σ) :
    ∃ s' n, (∀ fuel, n ≤ fuel → ata.identify bus fuel text s = some s') ∧
      ∃ m, s'.heap = { s.heap with mem := m } ∧ ∀ x, x ≠ text → x ≠ text + 1 → m.byte x = s.heap.mem.byte x := by
  rcases hinb : bus.inb (ata.sendIdentify bus s.device) ata.commandPort with ⟨status, d⟩
  by_cases hnone : status = 0
  · refine ⟨{ s with device := d }, 0, fun fuel _ => ?_, s.heap.mem, rfl, fun _ _ _ => rfl⟩
    simp only [ATA.identify, hinb, if_pos hnone]
  · obtain ⟨n, d', hwait, -⟩ := drive.waitReady_ends status d
    refine ⟨{ s with
        device := (ata.readIdentity bus text d' s.heap.mem 256).1
        heap := { s.heap with mem := (ata.readIdentity bus text d' s.heap.mem 256).2 } }, n, fun fuel hfuel => ?_, _,
      rfl, fun x hx hx' => byte_readIdentity hx hx' d' s.heap.mem 256⟩
    simp only [ATA.identify, hinb, if_neg hnone, hwait fuel hfuel]
    rfl

/-! ## Calls -/

variable {portBase : U16} {disk : Bool → ℕ → U8} {text : U32}

/-- What a call uses up, and that it returns. -/
theorem HeapRow.perform (channel : ∀ master, Drive (ATA.new portBase master) bus (disk master))
    (hrow : HeapRow start size s bs) (hfits : ArenaFits start size)
    (htext : text ∉ heapArena start size ∧ text + 1 ∉ heapArena start size) {op : ChannelOp}
    (hop : op.Allowed (heapArena start size)) (hroom : extent bs + op.cost + 21 ≤ size.toNat) :
    ∃ s' n bs', (∀ fuel, n ≤ fuel → op.perform portBase bus fuel text s = some s') ∧
      HeapRow start size s' bs' ∧ extent bs' = extent bs + op.cost := by
  cases op with
  | identify master =>
    obtain ⟨s', n, hidentify, m, hheap, hm⟩ := (channel master).identify_returns text s
    refine ⟨s', n, bs, hidentify, ?_, rfl⟩
    have hcongr := hrow.congr hfits (show extent bs + 20 ≤ size.toNat by omega) fun x hx =>
      hm x (fun heq => htext.1 (heq ▸ hx)) fun heq => htext.2 (heq ▸ hx)
    unfold HeapRow at hcongr ⊢
    rwa [hheap]
  | read master c =>
    obtain ⟨s', n, hread, hrow', -⟩ := (channel master).read_room hrow hfits hop.1 hop.2 hroom
    refine ⟨s', n, _, fun fuel hfuel => ?_, hrow', extent_sectors bs c.sectors⟩
    rw [ChannelOp.perform, hread fuel hfuel]
    rfl
  | kmalloc n =>
    obtain ⟨h', hmalloc, hrow', -⟩ := hrow.malloc hfits (n := n) (by dsimp only [ChannelOp.cost] at hroom; omega)
    refine ⟨{ s with heap := h' }, 0, bs ++ [⟨n.toNat, true⟩], fun _ _ => ?_, hrow', ?_⟩
    · rw [ChannelOp.perform, hmalloc]
      rfl
    · rw [extent_append, extent_cons, extent_nil, Block.span_mk, ChannelOp.cost]
      omega

theorem HeapRow.performAll (channel : ∀ master, Drive (ATA.new portBase master) bus (disk master))
    (hrow : HeapRow start size s bs) (hfits : ArenaFits start size)
    (htext : text ∉ heapArena start size ∧ text + 1 ∉ heapArena start size) {ops : List ChannelOp}
    (hops : ∀ op ∈ ops, op.Allowed (heapArena start size))
    (hroom : extent bs + (ops.map ChannelOp.cost).sum + 21 ≤ size.toNat) :
    ∃ s' n bs', (∀ fuel, n ≤ fuel → ChannelOp.performAll portBase bus fuel text s ops = some s') ∧
      HeapRow start size s' bs' ∧ extent bs' = extent bs + (ops.map ChannelOp.cost).sum := by
  induction ops generalizing s bs with
  | nil => exact ⟨s, 0, bs, fun _ _ => rfl, hrow, rfl⟩
  | cons op ops ih =>
    rw [List.forall_mem_cons] at hops
    rw [List.map_cons, List.sum_cons] at hroom ⊢
    obtain ⟨s₁, n, bs₁, hop, hrow₁, hextent₁⟩ := hrow.perform channel hfits htext hops.1 (by omega)
    obtain ⟨s₂, m, bs₂, hrest, hrow₂, hextent₂⟩ := ih hrow₁ hops.2 (by omega)
    refine ⟨s₂, max n m, bs₂, fun fuel hfuel => ?_, hrow₂, by omega⟩
    rw [ChannelOp.performAll, List.foldlM_cons, hop fuel (by omega), Option.bind_eq_bind, Option.bind_some]
    exact hrest fuel (by omega)

/-- Whatever is called before on either drive and of the heap, as long as there is room in the heap, a read returns the
    bytes of its own drive, and changes nothing outside the heap and the caller's buffer. -/
theorem channel_reads (channel : ∀ master, Drive (ATA.new portBase master) bus (disk master))
    (hfits : ArenaFits start size) (htext : text ∉ heapArena start size ∧ text + 1 ∉ heapArena start size)
    (mem : Ram) (device : σ) {ops : List ChannelOp} {master : Bool}
    (hops : ∀ op ∈ ops ++ [ChannelOp.read master c], op.Allowed (heapArena start size))
    (hroom : ((ops ++ [ChannelOp.read master c]).map ChannelOp.cost).sum + 21 ≤ size.toNat) :
    ∃ s s' n, (∀ fuel, n ≤ fuel →
        ChannelOp.performAll portBase bus fuel text ⟨device, Heap.init mem start size, [], []⟩ ops = some s ∧
        (ATA.new portBase master).read bus fuel c.file c.offset c.size c.buf s = some (c.size, s')) ∧
      (∀ i : ℕ, i < c.size.toNat → s'.heap.mem.byte (c.buf + (i : U32)) = disk master (c.offset.toNat + i)) ∧
      ∀ x ∉ heapArena start size, (∀ i : ℕ, i < c.size.toNat → x ≠ c.buf + (i : U32)) →
        s'.heap.mem.byte x = s.heap.mem.byte x := by
  rw [List.map_append, List.sum_append, List.map_singleton, List.sum_singleton] at hroom
  obtain ⟨s, n, bs, hrun, hrow, hextent⟩ := (HeapRow.init hfits (by omega) mem device).performAll channel hfits htext
    (fun op hop => hops op (List.mem_append_left _ hop)) (by rw [extent_nil]; omega)
  obtain ⟨hvalid, hbuf⟩ := hops (.read master c) (List.mem_append_right _ (List.mem_singleton_self _))
  rw [extent_nil] at hextent
  obtain ⟨s', m, hread, -, hbytes, hframe⟩ := (channel master).read_room hrow hfits hvalid hbuf
    (by dsimp only [ChannelOp.cost] at hroom; omega)
  exact ⟨s, s', max n m, fun fuel hfuel => ⟨hrun fuel (by omega), hread fuel (by omega)⟩, hbytes, hframe⟩

/-! ## A channel -/

/-- Two drives that are always ready, with the registers and the queue that they share. -/
def readyChannelBus (portBase : U16) (disk : Bool → ℕ → U8) : PortBus ((U16 → U8) × List U16) where
  outb d p v := (Function.update d.1 p v,
    if p = portBase + 7 ∧ v = 0x20 then
      sectorWords (disk (d.1 (portBase + 6) &&& 0xF0 = 0xE0)) ((ATA.new portBase true).lba28 d.1).toNat
    else d.2)
  inb d _ := (0x50, d)
  inw d _ := (d.2.headD 0, d.1, d.2.tail)

theorem readyChannelBus_reg (portBase : U16) (disk : Bool → ℕ → U8) (d : (U16 → U8) × List U16) (p : U16) (v : U8) :
    ((readyChannelBus portBase disk).outb d p v).1 p = v :=
  Function.update_self ..

theorem readyChannelBus_reg_of_ne (portBase : U16) (disk : Bool → ℕ → U8) (d : (U16 → U8) × List U16) (p : U16)
    (v : U8) (q : U16) (h : q ≠ p) : ((readyChannelBus portBase disk).outb d p v).1 q = d.1 q :=
  Function.update_of_ne h ..

def readyChannel (portBase : U16) (disk : Bool → ℕ → U8) (master : Bool) :
    Drive (ATA.new portBase master) (readyChannelBus portBase disk) (disk master) where
  reg := Prod.fst
  queue := Prod.snd
  busyFor _ := 0
  reg_outb := readyChannelBus_reg portBase disk
  reg_outb_of_ne := readyChannelBus_reg_of_ne portBase disk
  queue_command d hselected := by
    have hmaster : decide (d.1 (portBase + 6) &&& 0xF0 = 0xE0) = master := by
      have hdevice : d.1 (portBase + 6) &&& 0xF0 = if master then 0xE0 else 0xF0 := hselected.1
      rw [hdevice]
      cases master <;> decide
    refine (if_pos ⟨rfl, rfl⟩).trans ?_
    rw [hmaster]
    rfl
  queue_inb _ := rfl
  busyFor_inb _ h := absurd h (show ¬ busy 0x50 = true by decide)
  inw_data d w ws h := by
    dsimp only [readyChannelBus]
    rw [h]
    exact ⟨rfl, rfl⟩

/-- The first sector of the slave, read when both drives have been identified and the master has been read from. -/
def slaveSector : DiskRead where
  offset := 0
  size := 512
  buf := 0x300000

theorem slaveSector_allowed (master : Bool) :
    (ChannelOp.read master slaveSector).Allowed (heapArena KERNEL_HEAP_START KERNEL_HEAP_SIZE) := by
  refine ⟨⟨by decide, by decide⟩, fun i hi => notMem_kernelArena ?_⟩
  have hi' : i < 512 := hi
  show (0x300000 + BitVec.ofNat 32 i : U32).toNat < 0xC0400000
  rw [BitVec.toNat_add, BitVec.toNat_ofNat, show (0x300000 : U32).toNat = 0x300000 from rfl]
  omega

theorem channel_reads_slave : ∃ s s' n, (∀ fuel, n ≤ fuel →
      ChannelOp.performAll 0x1F0 (readyChannelBus 0x1F0 fun master a => if master then 0 else BitVec.ofNat 8 a) fuel
        0xC0101000 ⟨(fun _ => 0, []), Heap.init { byte := fun _ => 0 } KERNEL_HEAP_START KERNEL_HEAP_SIZE, [], []⟩
        [.identify true, .identify false, .read true slaveSector] = some s ∧
      (ATA.new 0x1F0 false).read (readyChannelBus 0x1F0 fun master a => if master then 0 else BitVec.ofNat 8 a) fuel
        nullptr 0 512 0x300000 s = some (512, s')) ∧
    (∀ i : ℕ, i < 512 → s'.heap.mem.byte (0x300000 + (i : U32)) = BitVec.ofNat 8 (0 + i)) ∧
    ∀ x ∉ heapArena KERNEL_HEAP_START KERNEL_HEAP_SIZE, (∀ i : ℕ, i < 512 → x ≠ 0x300000 + (i : U32)) →
      s'.heap.mem.byte x = s.heap.mem.byte x := by
  have hops : ∀ op ∈ [ChannelOp.identify true, .identify false, .read true slaveSector] ++ [.read false slaveSector],
      op.Allowed (heapArena KERNEL_HEAP_START KERNEL_HEAP_SIZE) := by
    simp only [List.cons_append, List.nil_append, List.forall_mem_cons]
    exact ⟨trivial, trivial, slaveSector_allowed true, slaveSector_allowed false,
      fun _ hnil => absurd hnil List.not_mem_nil⟩
  exact channel_reads (c := slaveSector) (readyChannel 0x1F0 fun master a => if master then 0 else BitVec.ofNat 8 a)
    ⟨by decide, by decide, by decide⟩ ⟨notMem_kernelArena (by decide), notMem_kernelArena (by decide)⟩
    { byte := fun _ => 0 } (fun _ => 0, []) hops (by decide)

end Pros
