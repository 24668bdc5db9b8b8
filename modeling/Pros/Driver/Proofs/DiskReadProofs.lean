import Pros.Driver.Proofs.SpanProofs
import Pros.Foundations.BitFields

/-!
# A read gives the bytes of the disk

The number of a sector survives being spread over four registers, and its bytes being handed out as words. So
every round copies the bytes of the disk that belong where the rounds before have stopped.
-/

namespace Pros

open ATA

/-! ## The registers -/

/-- What `readSector` writes to the device register. -/
def deviceByte (master : Bool) (lba : U32) : U8 :=
  ((if master then 0xE0 else 0xF0) ||| ((lba &&& (0x0F000000 : U32)) >>> 24)).setWidth 8

/-- Its lower half has the upper bits of the number. -/
theorem setWidth_deviceByte (master : Bool) (lba : U32) :
    (deviceByte master lba).setWidth 4 = lba.extractLsb' 24 4 := by
  have hmask : ∀ i < 4, (0x0F000000 : U32).getLsbD (24 + i) = true := by decide
  have hbase : ∀ i < 4, (((if master then 0xE0 else 0xF0 : ℕ) : U32)).getLsbD i = false := by
    cases master <;> decide
  apply BitVec.eq_of_getLsbD_eq
  intro i hi
  rw [deviceByte, BitVec.getLsbD_setWidth, BitVec.getLsbD_setWidth, BitVec.getLsbD_or, hbase i hi,
    BitVec.getLsbD_ushiftRight, BitVec.getLsbD_and, hmask i hi, BitVec.getLsbD_extractLsb']
  have hi8 : i < 8 := by omega
  simp [hi, hi8]

/-- Its upper half selects the drive. -/
theorem deviceByte_select (master : Bool) (lba : U32) :
    deviceByte master lba &&& 0xF0 = if master then 0xE0 else 0xF0 := by
  have hmask : ∀ i < 8, 4 ≤ i → (0x0F000000 : U32).getLsbD (24 + i) = false := by decide
  have hupper : ∀ i < 8, 4 ≤ i → ((((if master then 0xE0 else 0xF0 : ℕ) : U32)).getLsbD i &&
      (0xF0 : U8).getLsbD i) = (if master then 0xE0 else 0xF0 : U8).getLsbD i := by
    cases master <;> decide
  have hlower : ∀ i < 4, (if master then 0xE0 else 0xF0 : U8).getLsbD i = false := by
    cases master <;> decide
  have hlow : ∀ i < 4, (0xF0 : U8).getLsbD i = false := by decide
  apply BitVec.eq_of_getLsbD_eq
  intro i hi
  rw [deviceByte, BitVec.getLsbD_and, BitVec.getLsbD_setWidth, BitVec.getLsbD_or, BitVec.getLsbD_ushiftRight,
    BitVec.getLsbD_and]
  by_cases h4 : i < 4
  · rw [hlow i h4, hlower i h4, Bool.and_false]
  · rw [hmask i hi (by omega)]
    simpa [hi] using hupper i hi (by omega)

/-- The four registers together. -/
theorem lba28_eq (master : Bool) (lba : U32) :
    ((deviceByte master lba).setWidth 4 ++ ((lba &&& (0x00FF0000 : U32)) >>> 16).setWidth 8 ++
      ((lba &&& (0x0000FF00 : U32)) >>> 8).setWidth 8 ++ (lba &&& (0x000000FF : U32)).setWidth 8).toNat =
      lba.toNat % 2 ^ 28 := by
  rw [setWidth_deviceByte, BitField.setWidth_and_ushiftRight (by decide),
    BitField.setWidth_and_ushiftRight (by decide), BitField.setWidth_and_eq_extractLsb' (by omega) (by decide),
    BitVec.extractLsb'_append_extractLsb'_eq_extractLsb' (show 24 = 16 + 8 from rfl),
    BitVec.extractLsb'_append_extractLsb'_eq_extractLsb' (show 16 = 8 + 8 from rfl),
    BitVec.extractLsb'_append_extractLsb'_eq_extractLsb' (show 8 = 0 + 8 from rfl), BitVec.extractLsb'_toNat]
  rfl

/-! ## The drive -/

variable {σ : Type} {bus : PortBus σ} {disk : ℕ → U8} {fuel : ℕ} {s s' : DiskState σ}
  {c : DiskRead} {k : ℕ} {arena : Set U32} {portBase : U16} {master : Bool}

/-- The registers after the writes of `sendCommand`: each keeps its value while the others are written. -/
theorem Drive.reg_writes (drive : Drive (ATA.new portBase master) bus disk) (d : σ)
    (device error count low mid high : U8) :
    let ata := ATA.new portBase master
    let reg := drive.reg (bus.outb (bus.outb (bus.outb (bus.outb (bus.outb (bus.outb d
      ata.devicePort device) ata.errorPort error) ata.sectorCountPort count) ata.lbaLowPort low)
      ata.lbaMidPort mid) ata.lbaHighPort high)
    reg ata.devicePort = device ∧ reg ata.sectorCountPort = count ∧ reg ata.lbaLowPort = low ∧
      reg ata.lbaMidPort = mid ∧ reg ata.lbaHighPort = high := by
  simp [ATA.new, drive.reg_outb, drive.reg_outb_of_ne]

/-- The drive has understood the command. -/
theorem Drive.queue_sendCommand (drive : Drive (ATA.new portBase master) bus disk) {lba : U32}
    (hlba : lba.toNat < 2 ^ 28) (d : σ) :
    drive.queue ((ATA.new portBase master).sendCommand bus lba d) = sectorWords disk lba.toNat := by
  have hlba28 := lba28_eq master lba
  rw [Nat.mod_eq_of_lt hlba] at hlba28
  obtain ⟨hdevice, hcount, hlow, hmid, hhigh⟩ := drive.reg_writes d (deviceByte master lba) 0 1
    ((lba &&& (0x000000FF : U32)).setWidth 8) (((lba &&& (0x0000FF00 : U32)) >>> 8).setWidth 8)
    (((lba &&& (0x00FF0000 : U32)) >>> 16).setWidth 8)
  refine (drive.queue_command _ ⟨?_, hcount⟩).trans ?_
  · rw [hdevice]
    exact deviceByte_select master lba
  · rw [← hlba28, lba28, hdevice, hlow, hmid, hhigh]

/-- The loop that waits for the drive ends, and leaves the queue alone. -/
theorem Drive.waitReady_ends {ata : ATA} (drive : Drive ata bus disk) (status : U8) (d : σ) :
    ∃ n d', (∀ fuel, n ≤ fuel → ata.waitReady bus fuel status d = some d') ∧
      drive.queue d' = drive.queue d := by
  induction hn : drive.busyFor d using Nat.strong_induction_on generalizing status d with
  | _ n ih =>
    by_cases hbusy : busy status
    · -- one more status read, after which the drive is ready or nearer to it
      obtain ⟨m, d', hwait, hqueue⟩ : ∃ m d', (∀ fuel, m ≤ fuel →
          ata.waitReady bus fuel (bus.inb d ata.commandPort).1 (bus.inb d ata.commandPort).2 = some d') ∧
          drive.queue d' = drive.queue (bus.inb d ata.commandPort).2 := by
        by_cases hnext : busy (bus.inb d ata.commandPort).1
        · exact ih _ (hn ▸ drive.busyFor_inb d hnext) _ _ rfl
        · refine ⟨0, _, fun fuel _ => ?_, rfl⟩
          cases fuel <;> simp [waitReady, hnext]
      refine ⟨m + 1, d', fun fuel hfuel => ?_, hqueue.trans (drive.queue_inb d)⟩
      obtain ⟨fuel, rfl⟩ : ∃ f, fuel = f + 1 := ⟨fuel - 1, by omega⟩
      rw [waitReady, if_pos hbusy]
      exact hwait fuel (by omega)
    · refine ⟨0, d, fun fuel _ => ?_, rfl⟩
      cases fuel <;> simp [waitReady, hbusy]

/-! ## The data -/

/-- The bytes of a word. -/
theorem wordBytes (low high : U8) :
    ((high ++ low) &&& (0x00FF : U16)).setWidth 8 = low ∧
      (((high ++ low) >>> 8) &&& (0x00FF : U16)).setWidth 8 = high := by
  constructor
  · rw [BitField.setWidth_and (by decide), BitVec.setWidth_append_eq_right]
  · rw [BitField.setWidth_ushiftRight_and (by decide), BitVec.extractLsb'_append_eq_left]

/-- The byte at a position in a sector. -/
theorem sectorWords_drop {sector k : ℕ} (hk : k < 256) : (sectorWords disk sector).drop k =
    (disk (512 * sector + (2 * k + 1)) ++ disk (512 * sector + 2 * k)) ::
      (sectorWords disk sector).drop (k + 1) := by
  have hlen : k < (sectorWords disk sector).length := by simpa [sectorWords] using hk
  rw [List.drop_eq_getElem_cons hlen]
  simp [sectorWords]

/-- The loop that stores the data has stored the bytes of the sector from word `k` on. -/
theorem Drive.readWords_bytes {ata : ATA} (drive : Drive ata bus disk) {sector left : ℕ} (d : σ) (mem : Ram)
    (buf : U32) (hk : k + left = 256) (hqueue : drive.queue d = (sectorWords disk sector).drop k) :
    (∀ j : ℕ, 2 * k ≤ j → j < 512 →
      (ata.readWords bus d mem buf (BitVec.ofNat 32 (2 * k)) left).2.byte (buf + (j : U32)) =
        disk (512 * sector + j)) ∧
    ∀ x, (∀ j : ℕ, 2 * k ≤ j → j < 512 → x ≠ buf + (j : U32)) →
      (ata.readWords bus d mem buf (BitVec.ofNat 32 (2 * k)) left).2.byte x = mem.byte x := by
  induction left generalizing d mem k with
  | zero => exact ⟨fun j h1 h2 => by omega, fun x _ => rfl⟩
  | succ left ih =>
    rw [sectorWords_drop (by omega)] at hqueue
    obtain ⟨hword, hnext⟩ := drive.inw_data d _ _ hqueue
    obtain ⟨hlow, hhigh⟩ := wordBytes (disk (512 * sector + 2 * k)) (disk (512 * sector + (2 * k + 1)))
    have hstep : ata.readWords bus d mem buf (BitVec.ofNat 32 (2 * k)) (left + 1) =
        ata.readWords bus (bus.inw d ata.dataPort).2
          ((mem.store8 (buf + BitVec.ofNat 32 (2 * k))
            (((bus.inw d ata.dataPort).1 &&& (0x00FF : U16)).setWidth 8)).store8
            (buf + (BitVec.ofNat 32 (2 * k) + 1))
            ((((bus.inw d ata.dataPort).1 >>> 8) &&& (0x00FF : U16)).setWidth 8))
          buf (BitVec.ofNat 32 (2 * k) + 2) left := rfl
    have hi1 : BitVec.ofNat 32 (2 * k) + 1 = ((2 * k + 1 : ℕ) : U32) := (BitVec.ofNat_add ..).symm
    have hi2 : BitVec.ofNat 32 (2 * k) + 2 = BitVec.ofNat 32 (2 * (k + 1)) := (BitVec.ofNat_add ..).symm
    rw [hstep, hword, hlow, hhigh, hi1, hi2]
    obtain ⟨hbytes, hframe⟩ := ih (bus.inw d ata.dataPort).2
      ((mem.store8 (buf + ((2 * k : ℕ) : U32)) (disk (512 * sector + 2 * k))).store8
        (buf + ((2 * k + 1 : ℕ) : U32)) (disk (512 * sector + (2 * k + 1)))) (by omega) hnext
    constructor
    · intro j h1 h2
      by_cases hj : 2 * (k + 1) ≤ j
      · exact hbytes j hj h2
      · refine (hframe _ fun i h3 h4 heq => ?_).trans ?_
        · have := ArrayAddress.add_cast_inj buf j i (by omega) (by omega) heq
          omega
        · rw [Memory.byte_store8_add _ _ _ (by omega) (by omega),
            Memory.byte_store8_add _ _ _ (by omega) (by omega)]
          split_ifs with h3 h4
          · rw [h3]
          · rw [h4]
          · omega
    · intro x hx
      refine (hframe x fun j h1 h2 => hx j (by omega) h2).trans ?_
      rw [Memory.byte_store8_of_ne (hx _ (by omega) (by omega)),
        Memory.byte_store8_of_ne (hx _ (by omega) (by omega))]

/-- `readSector` returns a buffer of the heap that holds the sector. -/
theorem Drive.readSector_spec (drive : Drive (ATA.new portBase master) bus disk) {lba : U32}
    (hlba : lba.toNat < 2 ^ 28) (hfresh : KmallocFresh arena s.heap) :
    ∃ ret s1 n, (∀ fuel, n ≤ fuel → (ATA.new portBase master).readSector bus fuel lba s = some (ret, s1)) ∧
      (∀ i < 512, ret + ((i : ℕ) : U32) ∈ arena) ∧
      (∀ j : ℕ, j < 512 → s1.heap.mem.byte (ret + (j : U32)) = disk (512 * lba.toNat + j)) ∧
      ∀ x ∉ arena, s1.heap.mem.byte x = s.heap.mem.byte x := by
  obtain ⟨ret, heap, hmalloc, harena, hkeep⟩ := hfresh
  let d := (ATA.new portBase master).sendCommand bus lba s.device
  obtain ⟨n, d', hwait, hqueue⟩ := drive.waitReady_ends (bus.inb d (ATA.new portBase master).commandPort).1
    (bus.inb d (ATA.new portBase master).commandPort).2
  have hwords : drive.queue d' = (sectorWords disk lba.toNat).drop 0 := by
    rw [hqueue, drive.queue_inb, drive.queue_sendCommand hlba, List.drop_zero]
  obtain ⟨hbytes, hframe⟩ := drive.readWords_bytes d' heap.mem ret (Nat.zero_add 256) hwords
  rw [show BitVec.ofNat 32 (2 * 0) = 0 from rfl] at hbytes hframe
  generalize hdata : (ATA.new portBase master).readWords bus d' heap.mem ret 0 256 = data at hbytes hframe
  refine ⟨ret, { s with device := data.1, heap := { heap with mem := data.2 }, buffers := ret :: s.buffers }, n,
    fun fuel hfuel => ?_, harena, fun j hj => hbytes j (Nat.zero_le _) hj, fun x hx => ?_⟩
  · rw [readSector, hmalloc]
    simp only [Option.bind_eq_bind, Option.bind_some]
    rw [hwait fuel hfuel, Option.bind_some, hdata]
    rfl
  · refine (hframe x fun j _ hj heq => hx ?_).trans (hkeep x hx)
    rw [heq]
    exact harena j hj

/-! ## The rounds -/

/-- After `k` rounds, what was read so far is in the caller's buffer, and nothing else has changed outside the
    heap. -/
structure Copied (c : DiskRead) (disk : ℕ → U8) (arena : Set U32) (s s' : DiskState σ) (k : ℕ) : Prop where
  bytes : ∀ i : ℕ, i < c.copied k → s'.heap.mem.byte (c.buf + (i : U32)) = disk (c.offset.toNat + i)
  frame : ∀ x ∉ arena, (∀ i : ℕ, i < c.copied k → x ≠ c.buf + (i : U32)) →
    s'.heap.mem.byte x = s.heap.mem.byte x

/-- A position behind the cursor. -/
theorem DiskRead.cursor_add (c : DiskRead) (k b : ℕ) :
    c.cursor k + (b : U32) = c.buf + ((c.copied k + b : ℕ) : U32) := by
  rw [cursor, BitVec.add_assoc, BitVec.natCast_eq_ofNat, BitVec.natCast_eq_ofNat, BitVec.ofNat_add]

/-- A round goes on with the next bytes. -/
theorem Copied.round {s1 s2 : DiskState σ} {ret : U32} (h : c.NoWrap) (hk : c.HasRound k)
    (hbuf : ∀ i : ℕ, i < c.size.toNat → c.buf + (i : U32) ∉ arena) (hcopied : Copied c disk arena s s1 k)
    (harena : ∀ i : ℕ, i < 512 → ret + (i : U32) ∈ arena)
    (hsector : ∀ j : ℕ, j < 512 → s2.heap.mem.byte (ret + (j : U32)) =
      disk (512 * (c.counter k).toNat + j))
    (hkeep : ∀ x ∉ arena, s2.heap.mem.byte x = s1.heap.mem.byte x) :
    Copied c disk arena s
      (copySector (SectorRange.of c.offset c.size) (c.counter k) (c.cursor k) ret s2) (k + 1) := by
  have hpos := h.position hk
  have hbound := h.sector_bound hk
  have hread := h.toNat_readSize hk
  have hmono := c.copied_mono k
  have hle := c.copied_le (k + 1)
  have hsize := c.size.isLt
  have hsrc : ∀ a : ℕ, ret + (SectorRange.of c.offset c.size).sectorOffset (c.counter k) + (a : U32) =
      ret + ((((SectorRange.of c.offset c.size).sectorOffset (c.counter k)).toNat + a : ℕ) : U32) := by
    intro a
    rw [BitVec.add_assoc, BitVec.natCast_eq_ofNat, BitVec.natCast_eq_ofNat, BitVec.ofNat_add, BitVec.ofNat_toNat,
      BitVec.setWidth_eq]
  have hdest : ∀ b : ℕ, b < c.copied (k + 1) - c.copied k → c.cursor k + (b : U32) ∉ arena := by
    intro b hb
    rw [c.cursor_add]
    exact hbuf _ (by omega)
  have hdisj : ∀ a b : ℕ, a < c.copied (k + 1) - c.copied k → b < c.copied (k + 1) - c.copied k →
      ret + (SectorRange.of c.offset c.size).sectorOffset (c.counter k) + (a : U32) ≠ c.cursor k + (b : U32) := by
    intro a b ha hb heq
    refine hdest b hb ?_
    rw [← heq, hsrc]
    exact harena _ (by omega)
  constructor
  · intro i hi
    simp only [copySector, hread]
    by_cases hik : i < c.copied k
    · rw [byte_memcpy_of_ne fun b hb heq => ?_, hkeep _ (hbuf i (by omega)), hcopied.bytes i hik]
      rw [c.cursor_add] at heq
      have := ArrayAddress.add_cast_inj c.buf i _ (by omega) (by omega) heq
      omega
    · obtain ⟨b, rfl⟩ : ∃ b, i = c.copied k + b := ⟨i - c.copied k, by omega⟩
      rw [← c.cursor_add, byte_memcpy (by omega) hdisj (by omega), hsrc, hsector _ (by omega)]
      congr 1
      omega
  · intro x hx hout
    simp only [copySector, hread]
    rw [byte_memcpy_of_ne fun b hb heq => ?_, hkeep x hx, hcopied.frame x hx fun i hi => hout i (by omega)]
    rw [c.cursor_add] at heq
    exact hout _ (by omega) heq

/-- The rounds of a request. -/
theorem DiskRead.Valid.hasRound_iff (h : c.Valid) : c.HasRound k ↔ k < c.sectors := by
  obtain ⟨h1, h2⟩ := h
  have hnowrap : c.NoWrap := ⟨by omega, h2⟩
  rw [HasRound, hnowrap.endSector]
  unfold DiskRead.sectors
  omega

/-- After all of them, everything is copied. -/
theorem DiskRead.Valid.copied_sectors (h : c.Valid) : c.copied c.sectors = c.size.toNat := by
  obtain ⟨h1, h2⟩ := h
  unfold copied DiskRead.sectors
  omega

/-- No more rounds than there are sectors. -/
theorem DiskRead.Valid.rounds_of_le {ata : ATA} (h : c.Valid) (hk : c.sectors ≤ k) :
    c.rounds ata bus fuel s k = c.rounds ata bus fuel s c.sectors := by
  have hnowrap : c.NoWrap := ⟨by have := h.1; omega, h.2⟩
  induction k, hk using Nat.le_induction with
  | base => rfl
  | succ k hk ih =>
    rw [hnowrap.rounds_succ, if_neg fun hround => absurd (h.hasRound_iff.mp hround) (by omega), ih]

/-- The first `k` rounds return, and have copied their part. -/
theorem Drive.rounds_copied (drive : Drive (ATA.new portBase master) bus disk) (hc : c.Valid)
    (hbuf : ∀ i : ℕ, i < c.size.toNat → c.buf + (i : U32) ∉ arena)
    (hfresh : ∀ fuel k total s', k < c.sectors →
      c.rounds (ATA.new portBase master) bus fuel s k = some (total, s') → KmallocFresh arena s'.heap)
    (hk : k ≤ c.sectors) :
    ∃ s' n, (∀ fuel, n ≤ fuel → c.rounds (ATA.new portBase master) bus fuel s k =
      some (BitVec.ofNat 32 (c.copied k), s')) ∧ Copied c disk arena s s' k := by
  have hnowrap : c.NoWrap := ⟨by have := hc.1; omega, hc.2⟩
  induction k with
  | zero =>
    refine ⟨s, 0, fun fuel _ => ?_, ⟨fun i hi => ?_, fun x _ _ => rfl⟩⟩
    · rw [DiskRead.rounds_zero, DiskRead.copied_zero]
      rfl
    · rw [DiskRead.copied_zero] at hi
      omega
  | succ k ih =>
    obtain ⟨s1, n, hrounds, hcopied⟩ := ih (by omega)
    have hround := hc.hasRound_iff.mpr (show k < c.sectors by omega)
    have hlba : (c.counter k).toNat < 2 ^ 28 := by
      have := hround.lt
      unfold ATA.sectors at this
      rw [hround.toNat_counter]
      omega
    obtain ⟨ret, s2, m, hsector, harena, hbytes, hkeep⟩ :=
      drive.readSector_spec hlba (hfresh n k _ s1 (by omega) (hrounds n le_rfl))
    refine ⟨_, max n m, fun fuel hfuel => ?_, hcopied.round hnowrap hround hbuf harena hbytes hkeep⟩
    rw [hnowrap.rounds_succ, if_pos hround, hrounds fuel (by omega), Option.bind_some, DiskRead.round,
      hsector fuel (by omega), ← hnowrap.ofNat_copied_succ hround]
    rfl

end Pros
