import Pros.Driver.DiskDrive
import Pros.Driver.Proofs.ATAProofs

/-!
# The rounds of a read

As long as the end of a request does not wrap around, round `k` copies the bytes that its sector holds: it goes
on where the rounds before have stopped, on the disk and in the caller's buffer. All copies stay in bounds then,
and the other requests are harmless only when the loop makes no round at all (`copies_inBounds_iff`).
-/

namespace Pros

open ATA

variable {σ : Type} {ata : ATA} {bus : PortBus σ} {fuel : ℕ} {s s' : DiskState σ} {c : DiskRead} {k : ℕ}

namespace DiskRead

/-! ## The variables of a round -/

/-- `counter` in round `k`. -/
def counter (c : DiskRead) (k : ℕ) : U32 := BitVec.ofNat 32 (c.offset.toNat / 512 + k)

/-- `currentBuffer` in round `k`. -/
def cursor (c : DiskRead) (k : ℕ) : U32 := c.buf + BitVec.ofNat 32 (c.copied k)

/-- Round `k` reads a sector of the request. -/
def HasRound (c : DiskRead) (k : ℕ) : Prop :=
  c.offset.toNat / 512 + k ≤ (SectorRange.of c.offset c.size).endSector.toNat

@[simp] theorem copied_zero (c : DiskRead) : c.copied 0 = 0 := by
  unfold copied
  omega

theorem copied_le (c : DiskRead) (k : ℕ) : c.copied k ≤ c.size.toNat := Nat.min_le_left ..

theorem counter_zero (c : DiskRead) : c.counter 0 = (SectorRange.of c.offset c.size).start := by
  apply BitVec.eq_of_toNat_eq
  have h := c.offset.isLt
  rw [counter, BitVec.toNat_ofNat, SectorRange.of, BitVec.toNat_udiv, show ATA_SECTOR_SIZE.toNat = 512 from rfl]
  omega

theorem cursor_zero (c : DiskRead) : c.cursor 0 = c.buf := by
  rw [cursor, copied_zero]
  exact BitVec.add_zero _

theorem HasRound.lt (h : c.HasRound k) : c.offset.toNat / 512 + k < ATA.sectors := by
  have hend := endSector_lt c.offset c.size
  unfold HasRound at h
  omega

theorem HasRound.toNat_counter (h : c.HasRound k) : (c.counter k).toNat = c.offset.toNat / 512 + k := by
  have hlt := h.lt
  unfold ATA.sectors at hlt
  rw [counter, BitVec.toNat_ofNat, Nat.mod_eq_of_lt (by omega)]

theorem counter_le_iff (hk : c.offset.toNat / 512 + k ≤ ATA.sectors) :
    c.counter k ≤ (SectorRange.of c.offset c.size).endSector ↔ c.HasRound k := by
  unfold ATA.sectors at hk
  rw [BitVec.le_def, counter, BitVec.toNat_ofNat, Nat.mod_eq_of_lt (by omega)]
  rfl

theorem counter_succ (c : DiskRead) (k : ℕ) : c.counter k + 1 = c.counter (k + 1) :=
  (BitVec.ofNat_add ..).symm

theorem toNat_start (c : DiskRead) :
    (SectorRange.of c.offset c.size).start.toNat = c.offset.toNat / 512 := BitVec.toNat_udiv

/-- The offset of the last byte. -/
theorem NoWrap.toNat_last (h : c.NoWrap) :
    (c.offset + c.size - 1).toNat = c.offset.toNat + c.size.toNat - 1 := by
  obtain ⟨h1, h2⟩ := h
  have hone : (1 : U32).toNat = 1 := rfl
  rw [BitVec.toNat_sub, BitVec.toNat_add, hone]
  omega

theorem NoWrap.endSector (h : c.NoWrap) : (SectorRange.of c.offset c.size).endSector.toNat =
    (c.offset.toNat + c.size.toNat - 1) / 512 := by
  rw [SectorRange.of, BitVec.toNat_udiv, h.toNat_last]
  rfl

theorem NoWrap.endOffset (h : c.NoWrap) : (SectorRange.of c.offset c.size).endOffset.toNat =
    (c.offset.toNat + c.size.toNat - 1) % 512 := by
  rw [SectorRange.of, BitVec.toNat_umod, h.toNat_last]
  rfl

theorem HasRound.counter_eq_start_iff (hk : c.HasRound k) :
    c.counter k = (SectorRange.of c.offset c.size).start ↔ k = 0 := by
  rw [← BitVec.toNat_inj, hk.toNat_counter, toNat_start]
  omega

/-- Only the first round starts inside a sector. -/
theorem HasRound.sectorOffset (hk : c.HasRound k) :
    ((SectorRange.of c.offset c.size).sectorOffset (c.counter k)).toNat =
      if k = 0 then c.offset.toNat % 512 else 0 := by
  by_cases h0 : k = 0
  · rw [SectorRange.sectorOffset, if_pos (hk.counter_eq_start_iff.mpr h0), if_pos h0]
    exact BitVec.toNat_umod
  · rw [SectorRange.sectorOffset, if_neg fun h => h0 (hk.counter_eq_start_iff.mp h), if_neg h0]
    rfl

/-- Round `k` goes on at the byte of the disk where the rounds before have stopped. -/
theorem NoWrap.position (h : c.NoWrap) (hk : c.HasRound k) :
    c.offset.toNat + c.copied k =
      512 * (c.counter k).toNat + ((SectorRange.of c.offset c.size).sectorOffset (c.counter k)).toNat := by
  rw [hk.sectorOffset, hk.toNat_counter]
  unfold HasRound at hk
  rw [h.endSector] at hk
  unfold copied
  split_ifs with h0 <;> omega

/-- The round of the last sector completes the request. -/
theorem NoWrap.copied_last (h : c.NoWrap)
    (hlast : c.offset.toNat / 512 + k = (c.offset.toNat + c.size.toNat - 1) / 512) :
    c.copied (k + 1) = c.size.toNat := by
  obtain ⟨h1, -⟩ := h
  unfold copied
  omega

/-- A round before it goes on to the end of its sector. -/
theorem NoWrap.copied_succ (h : c.NoWrap) (hk : c.HasRound k)
    (hlast : c.offset.toNat / 512 + k ≠ (c.offset.toNat + c.size.toNat - 1) / 512) :
    c.offset.toNat + c.copied (k + 1) = 512 * (c.offset.toNat / 512 + k) + 512 := by
  unfold HasRound at hk
  rw [h.endSector] at hk
  unfold copied
  omega

/-- Round `k` copies what its sector has of the request. -/
theorem NoWrap.toNat_readSize (h : c.NoWrap) (hk : c.HasRound k) :
    ((SectorRange.of c.offset c.size).readSize (c.counter k)).toNat = c.copied (k + 1) - c.copied k := by
  have hone : (1 : U32).toNat = 1 := rfl
  have h512 : ATA_SECTOR_SIZE.toNat = 512 := rfl
  have hposition := h.position hk
  have hsector := hk.sectorOffset
  rw [hk.toNat_counter] at hposition
  have hoffset : ((SectorRange.of c.offset c.size).sectorOffset (c.counter k)).toNat < 512 := by
    rw [hsector]
    split_ifs <;> omega
  by_cases hlast : c.counter k = (SectorRange.of c.offset c.size).endSector
  · rw [SectorRange.readSize, if_pos hlast, BitVec.toNat_add, BitVec.toNat_sub, h.endOffset, hone]
    rw [← BitVec.toNat_inj, hk.toNat_counter, h.endSector] at hlast
    have hle := c.copied_le k
    have hpos := h.1
    have hmod := Nat.div_add_mod (c.offset.toNat + c.size.toNat - 1) 512
    have hlt := Nat.mod_lt (c.offset.toNat + c.size.toNat - 1) (show 0 < 512 by omega)
    rw [h.copied_last hlast]
    rw [← hlast] at hmod
    generalize (c.offset.toNat + c.size.toNat - 1) % 512 = last at *
    omega
  · have hread : ((SectorRange.of c.offset c.size).readSize (c.counter k)).toNat =
        512 - ((SectorRange.of c.offset c.size).sectorOffset (c.counter k)).toNat := by
      rw [SectorRange.readSize, if_neg hlast]
      split_ifs with hfirst
      · rw [BitVec.toNat_sub, h512]
        omega
      · rw [hsector, if_neg fun h0 => hfirst (hk.counter_eq_start_iff.mpr h0)]
        rfl
    rw [← BitVec.toNat_inj, hk.toNat_counter, h.endSector] at hlast
    have hcopied := h.copied_succ hk hlast
    rw [hread]
    omega

theorem copied_mono (c : DiskRead) (k : ℕ) : c.copied k ≤ c.copied (k + 1) := by
  unfold copied
  omega

/-- A round stays inside its sector. -/
theorem NoWrap.sector_bound (h : c.NoWrap) (hk : c.HasRound k) :
    ((SectorRange.of c.offset c.size).sectorOffset (c.counter k)).toNat +
      ((SectorRange.of c.offset c.size).readSize (c.counter k)).toNat ≤ 512 := by
  have hpos := h.position hk
  rw [h.toNat_readSize hk]
  rw [hk.toNat_counter] at hpos
  unfold copied at hpos ⊢
  omega

theorem NoWrap.ofNat_copied_succ (h : c.NoWrap) (hk : c.HasRound k) :
    BitVec.ofNat 32 (c.copied k) + (SectorRange.of c.offset c.size).readSize (c.counter k) =
      BitVec.ofNat 32 (c.copied (k + 1)) := by
  have hsize : (SectorRange.of c.offset c.size).readSize (c.counter k) =
      BitVec.ofNat 32 (c.copied (k + 1) - c.copied k) := by
    rw [← h.toNat_readSize hk, BitVec.ofNat_toNat, BitVec.setWidth_eq]
  rw [hsize, ← BitVec.ofNat_add, Nat.add_sub_cancel' (c.copied_mono k)]

theorem NoWrap.cursor_succ (h : c.NoWrap) (hk : c.HasRound k) :
    c.cursor k + (SectorRange.of c.offset c.size).readSize (c.counter k) = c.cursor (k + 1) := by
  rw [cursor, cursor, BitVec.add_assoc, h.ofNat_copied_succ hk]

/-! ## The loop, round by round -/

instance : Decidable (c.HasRound k) := inferInstanceAs (Decidable (_ ≤ _))

/-- Round `k`, with the total and the state before it. -/
def round (c : DiskRead) (ata : ATA) (bus : PortBus σ) (fuel k : ℕ) (x : U32 × DiskState σ) :
    Option (U32 × DiskState σ) := do
  let r := SectorRange.of c.offset c.size
  let (ret, s) ← ata.readSector bus fuel (c.counter k) x.2
  return (x.1 + r.readSize (c.counter k), copySector r (c.counter k) (c.cursor k) ret s)

/-- The loop from round `j` on, which makes one round more when there is one. -/
theorem NoWrap.readLoop_succ (ata : ATA) (bus : PortBus σ) (fuel : ℕ) (h : c.NoWrap) {j : ℕ}
    (hj : c.offset.toNat / 512 + j ≤ ATA.sectors) (total : U32) (s : DiskState σ) (k : ℕ) :
    ata.readLoop bus fuel (SectorRange.of c.offset c.size) (c.counter j) (c.cursor j) total s (k + 1) =
      if c.HasRound (j + k) then
        (ata.readLoop bus fuel (SectorRange.of c.offset c.size) (c.counter j) (c.cursor j) total s k).bind
          (c.round ata bus fuel (j + k))
      else ata.readLoop bus fuel (SectorRange.of c.offset c.size) (c.counter j) (c.cursor j) total s k := by
  induction k generalizing j total s with
  | zero =>
    simp only [readLoop, Nat.add_zero]
    by_cases hround : c.HasRound j
    · rw [if_pos ((counter_le_iff hj).mpr hround), if_pos hround]
      rfl
    · rw [if_neg fun hle => hround ((counter_le_iff hj).mp hle), if_neg hround]
  | succ k ih =>
    rw [readLoop]
    by_cases hround : c.HasRound j
    · rw [if_pos ((counter_le_iff hj).mpr hround), readLoop, if_pos ((counter_le_iff hj).mpr hround)]
      have hnext : c.offset.toNat / 512 + (j + 1) ≤ ATA.sectors := hround.lt
      simp only [h.cursor_succ hround, counter_succ, ih hnext, show j + 1 + k = j + (k + 1) by omega]
      split_ifs
      · exact (Option.bind_assoc ..).symm
      · rfl
    · have hlater : ¬ c.HasRound (j + (k + 1)) := by
        unfold HasRound at hround ⊢
        omega
      rw [if_neg fun hle => hround ((counter_le_iff hj).mp hle), if_neg hlater, readLoop,
        if_neg fun hle => hround ((counter_le_iff hj).mp hle)]

@[simp] theorem rounds_zero (c : DiskRead) (s : DiskState σ) :
    c.rounds ata bus fuel s 0 = some (0, s) := rfl

theorem NoWrap.rounds_succ (h : c.NoWrap) (s : DiskState σ) (k : ℕ) :
    c.rounds ata bus fuel s (k + 1) =
      if c.HasRound k then (c.rounds ata bus fuel s k).bind (c.round ata bus fuel k)
      else c.rounds ata bus fuel s k := by
  have hstart : c.offset.toNat / 512 + 0 ≤ ATA.sectors := by
    have := c.offset.isLt
    unfold ATA.sectors
    omega
  have hloop := NoWrap.readLoop_succ ata bus fuel h hstart 0 s k
  rwa [counter_zero, cursor_zero, Nat.zero_add] at hloop

/-- What holds at first and is preserved by every round holds after any number of rounds. -/
theorem NoWrap.rounds_rule {P : ℕ → DiskState σ → Prop} (h : c.NoWrap) (h0 : P 0 s)
    (hstep : ∀ k s1 s2 ret, c.HasRound k → P k s1 →
      ata.readSector bus fuel (c.counter k) s1 = some (ret, s2) →
      P (k + 1) (copySector (SectorRange.of c.offset c.size) (c.counter k) (c.cursor k) ret s2))
    {total : U32} (hrun : c.rounds ata bus fuel s k = some (total, s')) :
    ∃ j ≤ k, (j < k → ¬ c.HasRound j) ∧ total = BitVec.ofNat 32 (c.copied j) ∧ P j s' := by
  induction k generalizing total s' with
  | zero =>
    obtain ⟨rfl, rfl⟩ := Prod.mk.inj (Option.some.inj hrun)
    exact ⟨0, le_rfl, fun hlt => absurd hlt (lt_irrefl 0), by rw [copied_zero]; rfl, h0⟩
  | succ k ih =>
    rw [h.rounds_succ] at hrun
    split_ifs at hrun with hround
    · obtain ⟨⟨total0, s1⟩, hbefore, hrun⟩ := Option.bind_eq_some_iff.mp hrun
      obtain ⟨j, hjk, hmore, rfl, hP⟩ := ih hbefore
      have hj : j = k := by
        by_contra hne
        refine hmore (by omega) ?_
        unfold HasRound at hround ⊢
        omega
      subst hj
      obtain ⟨⟨ret, s2⟩, hsector, hrun⟩ := Option.bind_eq_some_iff.mp hrun
      obtain ⟨rfl, rfl⟩ := Prod.mk.inj (Option.some.inj hrun)
      exact ⟨j + 1, le_rfl, fun hlt => absurd hlt (lt_irrefl _), h.ofNat_copied_succ hround,
        hstep j s1 s2 ret hround hP hsector⟩
    · obtain ⟨j, hjk, hmore, htotal, hP⟩ := ih hrun
      refine ⟨j, by omega, fun _ => ?_, htotal, hP⟩
      by_cases hj : j = k
      · rwa [hj]
      · exact hmore (by omega)

end DiskRead

/-! ## Bounds -/

/-- A sector's buffer is logged, and no copy. -/
theorem readSector_logs {lba ret : U32} (h : ata.readSector bus fuel lba s = some (ret, s')) :
    s'.buffers = ret :: s.buffers ∧ s'.copies = s.copies := by
  unfold readSector at h
  obtain ⟨⟨p, heap⟩, -, h⟩ := Option.bind_eq_some_iff.mp h
  obtain ⟨d, -, h⟩ := Option.bind_eq_some_iff.mp h
  obtain ⟨rfl, rfl⟩ := Prod.mk.inj (Option.some.inj h)
  exact ⟨rfl, rfl⟩

/-- The `memcpy` of a round. -/
theorem DiskRead.NoWrap.copyInBounds (h : c.NoWrap) (hk : c.HasRound k) (ret : U32) :
    CopyInBounds c.buf c.size ret (c.cursor k,
      ret + (SectorRange.of c.offset c.size).sectorOffset (c.counter k),
      (SectorRange.of c.offset c.size).readSize (c.counter k)) := by
  have hbound := h.sector_bound hk
  have hread := h.toNat_readSize hk
  have hmono := c.copied_mono k
  have hle := c.copied_le (k + 1)
  refine ⟨((SectorRange.of c.offset c.size).sectorOffset (c.counter k)).toNat, c.copied k, ?_, hbound, rfl, ?_⟩
  · rw [BitVec.natCast_eq_ofNat, BitVec.ofNat_toNat, BitVec.setWidth_eq]
  · rw [hread]
    omega

/-- A request that does not wrap around stays in bounds. -/
theorem DiskRead.NoWrap.copiesInBounds (h : c.NoWrap) : CopiesInBounds ata bus s c := by
  intro fuel k total s' hrun
  obtain ⟨j, -, -, rfl, hlogs⟩ := h.rounds_rule (P := fun _ s' =>
    List.Forall₂ (CopyInBounds c.buf c.size) s'.buffers s'.copies) List.Forall₂.nil
    (fun k s1 s2 ret hround hlogs hsector => by
      obtain ⟨hbuffers, hcopies⟩ := readSector_logs hsector
      rw [copySector, hbuffers, hcopies]
      exact List.Forall₂.cons (h.copyInBounds hround ret) hlogs) hrun
  refine ⟨hlogs, ?_⟩
  have hle := c.copied_le j
  have hsize := c.size.isLt
  rw [BitVec.le_def, BitVec.toNat_ofNat, Nat.mod_eq_of_lt (by omega)]
  exact hle

/-- A loop that makes no round. -/
theorem rounds_of_start_gt (h : ¬ (SectorRange.of c.offset c.size).start ≤
    (SectorRange.of c.offset c.size).endSector) : c.rounds ata bus fuel s k = some (0, s) := by
  cases k with
  | zero => rfl
  | succ k => exact if_neg h

/-- The first round of any loop. -/
theorem rounds_one (h : (SectorRange.of c.offset c.size).start ≤ (SectorRange.of c.offset c.size).endSector)
    {ret : U32} {s1 : DiskState σ}
    (hsector : ata.readSector bus fuel (SectorRange.of c.offset c.size).start s = some (ret, s1)) :
    c.rounds ata bus fuel s 1 = some (0 + (SectorRange.of c.offset c.size).readSize
      (SectorRange.of c.offset c.size).start, copySector (SectorRange.of c.offset c.size)
        (SectorRange.of c.offset c.size).start c.buf ret s1) := by
  rw [DiskRead.rounds, readLoop, if_pos h, hsector]
  rfl

/-- The end of a request that wraps around. -/
theorem toNat_last_of_wrap (h : 2 ^ 32 < c.offset.toNat + c.size.toNat) :
    (c.offset + c.size - 1).toNat = c.offset.toNat + c.size.toNat - 1 - 2 ^ 32 := by
  have hone : (1 : U32).toNat = 1 := rfl
  have h1 := c.offset.isLt
  have h2 := c.size.isLt
  rw [BitVec.toNat_sub, BitVec.toNat_add, hone]
  omega

/-- A request that is not harmless makes a round, and copies too much in the first one. -/
theorem first_round_of_not_harmless (h : ¬ c.Harmless) :
    (SectorRange.of c.offset c.size).start ≤ (SectorRange.of c.offset c.size).endSector ∧
      (512 < ((SectorRange.of c.offset c.size).readSize (SectorRange.of c.offset c.size).start).toNat ∨
        c.size.toNat < ((SectorRange.of c.offset c.size).readSize
          (SectorRange.of c.offset c.size).start).toNat) := by
  have hoffset := c.offset.isLt
  have hsize := c.size.isLt
  obtain ⟨hnowrap, hwrap⟩ := not_or.mp h
  unfold DiskRead.NoWrap at hnowrap
  rcases Nat.eq_zero_or_pos (c.offset.toNat + c.size.toNat) with hzero | hpos
  · -- the empty request at the start of the disk reads all of it
    have h1 : c.offset = 0 := BitVec.eq_of_toNat_eq (show c.offset.toNat = 0 by omega)
    have h2 : c.size = 0 := BitVec.eq_of_toNat_eq (show c.size.toNat = 0 by omega)
    rw [h1, h2]
    decide
  · -- the end wraps around to the first sector
    have hlast := toNat_last_of_wrap (c := c) (by omega)
    have hsame : (SectorRange.of c.offset c.size).start = (SectorRange.of c.offset c.size).endSector := by
      apply BitVec.eq_of_toNat_eq
      rw [DiskRead.toNat_start, SectorRange.of, BitVec.toNat_udiv, hlast,
        show ATA_SECTOR_SIZE.toNat = 512 from rfl]
      omega
    refine ⟨BitVec.le_of_eq hsame, Or.inl ?_⟩
    have hone : (1 : U32).toNat = 1 := rfl
    have hstart : (SectorRange.of c.offset c.size).startOffset.toNat = c.offset.toNat % 512 :=
      BitVec.toNat_umod
    have hend : (SectorRange.of c.offset c.size).endOffset.toNat =
        (c.offset.toNat + c.size.toNat - 1 - 2 ^ 32) % 512 := by
      rw [SectorRange.of, BitVec.toNat_umod, hlast]
      rfl
    rw [SectorRange.readSize, if_pos hsame, SectorRange.sectorOffset, if_pos rfl, BitVec.toNat_add,
      BitVec.toNat_sub, hstart, hend, hone]
    omega

/-- Copies stay in bounds exactly for the harmless requests, unless the first sector never arrives. -/
theorem copies_inBounds_iff (ata : ATA) (bus : PortBus σ) (s : DiskState σ) (c : DiskRead) :
    CopiesInBounds ata bus s c ↔
      c.Harmless ∨ ∀ fuel, ata.readSector bus fuel (SectorRange.of c.offset c.size).start s.freshLog = none := by
  constructor
  · intro h
    by_contra hnot
    obtain ⟨hharm, hsome⟩ := not_or.mp hnot
    obtain ⟨fuel, hfuel⟩ := not_forall.mp hsome
    obtain ⟨⟨ret, s1⟩, hsector⟩ := Option.ne_none_iff_exists'.mp hfuel
    obtain ⟨hle, hsize⟩ := first_round_of_not_harmless hharm
    obtain ⟨hlogs, -⟩ := h fuel 1 _ _ (rounds_one hle hsector)
    obtain ⟨hbuffers, hcopies⟩ := readSector_logs hsector
    rw [copySector, hbuffers, hcopies] at hlogs
    obtain ⟨o, w, -, ho, -, hw⟩ := (List.forall₂_cons.mp hlogs).1
    dsimp only at ho hw
    omega
  · rintro ((hnowrap | ⟨hwrap, hsector⟩) | hnone)
    · exact hnowrap.copiesInBounds
    · intro fuel k total s' hrun
      rw [rounds_of_start_gt] at hrun
      · obtain ⟨rfl, rfl⟩ := Prod.mk.inj (Option.some.inj hrun)
        exact ⟨List.Forall₂.nil, BitVec.le_def.mpr (Nat.zero_le _)⟩
      · rw [BitVec.le_def, DiskRead.toNat_start, SectorRange.of, BitVec.toNat_udiv, toNat_last_of_wrap hwrap,
          show ATA_SECTOR_SIZE.toNat = 512 from rfl]
        omega
    · intro fuel k total s' hrun
      have hfirst : (total, s') = (0, s.freshLog) := by
        cases k with
        | zero => exact (Option.some.inj hrun).symm
        | succ k =>
          rw [DiskRead.rounds, readLoop, hnone fuel] at hrun
          split_ifs at hrun
          · cases hrun
          · exact (Option.some.inj hrun).symm
      obtain ⟨rfl, rfl⟩ := Prod.mk.inj hfirst
      exact ⟨List.Forall₂.nil, BitVec.le_def.mpr (Nat.zero_le _)⟩

/-- No bytes from the start of the disk. -/
def emptyRead : DiskRead where
  offset := 0
  size := 0
  buf := 0x300000

/-- The first round alone copies 512 bytes. -/
theorem emptyRead_not_inBounds :
    ¬ CopiesInBounds (ATA.new 0x1F0 true) readyDrive diskBoot emptyRead := by
  intro h
  have hany : (emptyRead.rounds (ATA.new 0x1F0 true) readyDrive 0 diskBoot.freshLog 1).any
      fun x => decide (x.2.copies.map (fun copy => copy.2.2) = [512]) := by
    decide +kernel
  obtain ⟨⟨total, s1⟩, hrun, hcopies⟩ := (Option.any_eq_true _ _).mp hany
  obtain ⟨hlogs, -⟩ := h 0 1 total s1 hrun
  obtain ⟨copy, hlist, hsize⟩ := List.map_eq_singleton_iff.mp (of_decide_eq_true hcopies)
  rw [hlist] at hlogs
  obtain ⟨sector, -, ⟨o, w, -, -, -, hw⟩, -, -⟩ := List.forall₂_cons_right_iff.mp hlogs
  rw [hsize] at hw
  exact absurd hw (by simp [emptyRead])

end Pros
