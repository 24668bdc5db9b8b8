import Pros.MM.MapTraversal
import Pros.MM.Proofs.BootLayoutProofs
import Pros.Lib.Proofs.RamProofs
import Mathlib.Data.Finite.Prod

/-!
# Going through the memory map

The loop of `init` stores nothing, so that it goes where the size fields of the buffer lead. There are finitely many
entries, so it terminates exactly if it does not come back to one. The loop of `initPMM` stores to the bitmap on the
way, and follows the one of `init` where these stores do not meet the size fields.
-/

namespace Pros

open PMM MapTraversal

/-! ## Places in the buffer -/

namespace MultibootInfo

variable {mbi : MultibootInfo} {entry : U32} {d : ℕ}

/-- The entry at a distance from the start. -/
theorem add_offset (mbi : MultibootInfo) (entry : U32) :
    PHYS_2_VIRT mbi.mmap_addr + (mbi.offset entry : U32) = entry := by
  unfold offset
  simp only [BitVec.natCast_eq_ofNat, BitVec.ofNat_toNat, BitVec.setWidth_eq]
  exact add_sub_cancel _ _

/-- A byte of the entry, seen from the start. -/
theorem virt_2_phys_add (mbi : MultibootInfo) (entry : U32) (i : ℕ) :
    VIRT_2_PHYS (entry + (i : U32)) = mbi.mmap_addr + ((mbi.offset entry + i : ℕ) : U32) := by
  conv_lhs => rw [← mbi.add_offset entry]
  unfold VIRT_2_PHYS PHYS_2_VIRT
  rw [Nat.cast_add]
  ring

/-- An entry lies in the buffer when there is room for it. -/
theorem contains_iff : mbi.Contains entry ↔ mbi.HasRoom (mbi.offset entry) := by
  have hlt := mbi.mmap_length.isLt
  have hbyte : ∀ i k : ℕ, k < mbi.mmap_length.toNat →
      (VIRT_2_PHYS (entry + (i : U32)) = mbi.mmap_addr + (k : U32) ↔
        (mbi.offset entry + i) % 2 ^ 32 = k) := by
    intro i k hk
    rw [virt_2_phys_add, add_right_inj, ← BitVec.toNat_inj, BitVec.natCast_eq_ofNat,
      BitVec.natCast_eq_ofNat, BitVec.toNat_ofNat, BitVec.toNat_ofNat, Nat.mod_eq_of_lt (hk.trans hlt)]
  have hoff : mbi.offset entry < 2 ^ 32 := BitVec.isLt _
  unfold Contains HasRoom sizeofMmapEntry
  constructor
  · intro h
    -- No byte before the last one wraps, since none is at the distance `2 ^ 32 - 1`.
    have hnext : ∀ i < 24, mbi.offset entry + i < mbi.mmap_length.toNat := by
      intro i hi
      induction i with
      | zero =>
        obtain ⟨k, hk, heq⟩ := h 0 hi
        rw [hbyte 0 k hk] at heq
        omega
      | succ i ih =>
        have := ih (by omega)
        obtain ⟨k, hk, heq⟩ := h (i + 1) hi
        rw [hbyte (i + 1) k hk] at heq
        omega
    have := hnext 23 (by omega)
    omega
  · intro h i hi
    exact ⟨mbi.offset entry + i, by omega, (hbyte i _ (by omega)).mpr (Nat.mod_eq_of_lt (by omega))⟩

end MultibootInfo

/-! ## Memory -/

section Memory

variable {kernelEnd : U32} {s s' : PMM} {e : MmapEntry} {map map' : Memory ℕ} {x : BitCall}
  {calls : List BitCall} {a n : ℕ}

theorem byte_apply_of_ne (h : a / 4 ≠ x.bit / 32) : (x.apply map).byte a = map.byte a := by
  have hword : ∀ b v, a / 4 ≠ b / 32 → (map.store32 (4 * (b / 32)) v).byte a = map.byte a := by
    intro b v hb
    refine Memory.byte_store32_of_ne fun i hi heq => hb ?_
    rw [heq, Nat.cast_id]
    omega
  cases x with
  | setBit b => exact hword b _ h
  | unsetBit b => exact hword b _ h

theorem byte_foldl_of_ne (h : ∀ x ∈ calls, a / 4 ≠ x.bit / 32) :
    (calls.foldl BitCall.apply map).byte a = map.byte a := by
  induction calls generalizing map with
  | nil => rfl
  | cons x calls ih =>
    rw [List.foldl_cons, ih fun y hy => h y (List.mem_cons_of_mem _ hy),
      byte_apply_of_ne (h x List.mem_cons_self)]

/-- A round of `initPMM` stores to the first 256 KiB behind the kernel only. -/
theorem byte_setRegion_of_le (h : 2 ^ 18 ≤ a) : (s.setRegion e).memoryMap.byte a = s.memoryMap.byte a := by
  have hbits : ∀ x ∈ BitCall.setRegion e, x.bit < 2 ^ 21 := by
    rw [forall_setRegion_lt (by omega)]
    have h1 := e.addr_low.isLt
    have h2 := e.len_low.isLt
    omega
  rw [memoryMap_setRegion, byte_foldl_of_ne fun x hx => ?_]
  have := hbits x hx
  omega

theorem byte_fill_of_le (h : 2 ^ 18 ≤ a) : s.fill.memoryMap.byte a = s.memoryMap.byte a := by
  have hsize := s.memorySize.isLt
  refine byte_memset_of_ne ?_
  intro i _ hi heq
  rw [BitVec.toNat_udiv, toNat_div_BLOCK_SIZE, show BLOCKS_PER_BYTE.toNat = 8 from rfl] at hi
  rw [Nat.zero_add, Nat.cast_id] at heq
  omega

end Memory

/-! ## One loop -/

section Loop

variable {kernelEnd : U32} {mbi : MultibootInfo} {visit : PMM → MmapEntry → PMM} {s : PMM}
  {c t : MapCursor}

theorem guard_iff : (loopOver kernelEnd mbi visit).guard c ↔
    c.entry < PHYS_2_VIRT mbi.mmap_addr + mbi.mmap_length := decide_eq_true_iff

theorem pmm_round : ((loopOver kernelEnd mbi visit).round t).pmm =
    visit t.pmm (MmapEntry.load (t.pmm.memory kernelEnd) t.entry) := rfl

theorem entry_round : ((loopOver kernelEnd mbi visit).round t).entry = t.entry +
    MmapEntry.size (((loopOver kernelEnd mbi visit).round t).pmm.memory kernelEnd) t.entry + 4 := rfl

end Loop

/-! ## The loop of `init` -/

section Init

variable {kernelEnd : U32} {mbi : MultibootInfo} {s : PMM} {c t u : MapCursor} {offset : ℕ}

theorem memoryMap_begins (h : (loopOver kernelEnd mbi addLength).Begins c t) : t.pmm.memoryMap = c.pmm.memoryMap := by
  induction h with
  | first _ => rfl
  | next _ _ ih => exact ih

end Init

/-! ## Both loops -/

section Both

variable {kernelEnd : U32} {mbi : MultibootInfo} {visit : PMM → MmapEntry → PMM} {s s' : PMM}
  {c t t' u : MapCursor} {cs : List MapCursor} {entry : U32} {entries : List U32} {n fuel : ℕ}

/-- What a call of `init` returns. -/
theorem init_eq_some_iff : MapTraversal.init kernelEnd mbi s fuel = some (s', entries) ↔ ∃ c cs c' cs',
    (loopOver kernelEnd mbi addLength).run fuel (start mbi s) = some (c, cs) ∧
    (loopOver kernelEnd mbi setRegion).run fuel (start mbi c.pmm.fill) = some (c', cs') ∧
    s' = c'.pmm.setRegionUsed 0x00000000 (MB 2) ∧
    entries = cs.map MapCursor.entry ++ cs'.map MapCursor.entry := by
  unfold MapTraversal.init MapTraversal.initPMM
  constructor
  · intro h
    obtain ⟨⟨c, cs⟩, hrun, h⟩ := Option.bind_eq_some_iff.mp h
    obtain ⟨⟨s2, entries2⟩, h2, h⟩ := Option.bind_eq_some_iff.mp h
    obtain ⟨⟨c', cs'⟩, hrun', h2⟩ := Option.bind_eq_some_iff.mp h2
    obtain ⟨rfl, rfl⟩ := Prod.mk.inj (Option.some.inj h2)
    obtain ⟨rfl, rfl⟩ := Prod.mk.inj (Option.some.inj h)
    exact ⟨c, cs, c', cs', hrun, hrun', rfl, rfl⟩
  · rintro ⟨c, cs, c', cs', hrun, hrun', rfl, rfl⟩
    refine Option.bind_eq_some_iff.mpr ⟨(c, cs), hrun, ?_⟩
    refine Option.bind_eq_some_iff.mpr ⟨_, Option.bind_eq_some_iff.mpr ⟨(c', cs'), hrun', rfl⟩, rfl⟩

/-- A word that `initPMM` does not store to. -/
theorem load32_memory_of_apart (hapart : ∀ i : ℕ, i < 4 → 2 ^ 18 ≤ (a + (i : U32) - kernelEnd).toNat)
    (h : ∀ i, 2 ^ 18 ≤ i → s'.memoryMap.byte i = s.memoryMap.byte i) :
    (s'.memory kernelEnd).load32 a = (s.memory kernelEnd).load32 a :=
  Memory.load32_congr fun i hi => h _ (hapart i hi)

theorem apart_of_contains (hapart : mbi.BitmapApart kernelEnd) (hentry : mbi.Contains entry) {j : ℕ}
    (hj : j < sizeofMmapEntry) : 2 ^ 18 ≤ (entry + (j : U32) - kernelEnd).toNat := by
  have hroom := MultibootInfo.contains_iff.mp hentry
  unfold MultibootInfo.HasRoom at hroom
  have := hapart (mbi.offset entry + j) (by omega)
  rwa [Nat.cast_add, ← add_assoc, MultibootInfo.add_offset] at this

/-- The fields of an entry in the buffer stay what they are. -/
theorem load_memory_of_apart (hapart : mbi.BitmapApart kernelEnd) (hentry : mbi.Contains entry)
    (h : ∀ i, 2 ^ 18 ≤ i → s'.memoryMap.byte i = s.memoryMap.byte i) :
    MmapEntry.load (s'.memory kernelEnd) entry = MmapEntry.load (s.memory kernelEnd) entry := by
  have hfield : ∀ j : ℕ, j + 4 ≤ sizeofMmapEntry → (s'.memory kernelEnd).load32 (entry + (j : U32)) =
      (s.memory kernelEnd).load32 (entry + (j : U32)) := by
    refine fun j hj => load32_memory_of_apart (fun i hi => ?_) h
    rw [add_assoc, ← Nat.cast_add]
    exact apart_of_contains hapart hentry (by omega)
  simp only [MmapEntry.load, MmapEntry.mk.injEq]
  exact ⟨hfield 4 (by decide), hfield 8 (by decide), hfield 12 (by decide), hfield 16 (by decide),
    hfield 20 (by decide)⟩

/-- A round of `initPMM` goes where the one of `init` went. -/
theorem Follows.round (hapart : ∀ i : ℕ, i < 4 → 2 ^ 18 ≤ (t.entry + (i : U32) - kernelEnd).toNat)
    (h : Follows s t t') :
    Follows s ((loopOver kernelEnd mbi addLength).round t) ((loopOver kernelEnd mbi setRegion).round t') := by
  have hmap : ∀ i, 2 ^ 18 ≤ i →
      ((loopOver kernelEnd mbi setRegion).round t').pmm.memoryMap.byte i = s.memoryMap.byte i := by
    intro i hi
    rw [pmm_round, byte_setRegion_of_le hi, h.initPMM i hi]
  have hinit : ((loopOver kernelEnd mbi addLength).round t).pmm.memoryMap = s.memoryMap := h.init
  have hsize := load32_memory_of_apart hapart fun i hi =>
    (hmap i hi).trans (congrFun (congrArg Memory.byte hinit) i).symm
  refine ⟨?_, hinit, hmap⟩
  rw [entry_round, entry_round, h.entry, MmapEntry.size, hsize, MmapEntry.size]

/-- When the bitmap does not meet the size fields, `initPMM` goes through the entries that `init` went through. -/
theorem run_initPMM (hapart : ∀ t, (loopOver kernelEnd mbi addLength).Begins (start mbi s) t →
      ∀ i : ℕ, i < 4 → 2 ^ 18 ≤ (t.entry + (i : U32) - kernelEnd).toNat)
    (hmap : ∀ i, 2 ^ 18 ≤ i → s'.memoryMap.byte i = s.memoryMap.byte i)
    (h : (loopOver kernelEnd mbi addLength).run n (start mbi s) = some (c, cs)) :
    ∃ c' cs', (loopOver kernelEnd mbi setRegion).run n (start mbi s') = some (c', cs') ∧
      List.Forall₂ (Follows s) cs cs' := by
  have hguard : ∀ t t', Follows s t t' →
      (loopOver kernelEnd mbi setRegion).guard t' = (loopOver kernelEnd mbi addLength).guard t := by
    intro t t' ht
    rw [Bool.eq_iff_iff, guard_iff, guard_iff, ht.entry]
  have hstart : Follows s (start mbi s) (start mbi s') := ⟨rfl, rfl, hmap⟩
  obtain ⟨c', cs', hrun, -, hcs⟩ := Loop.run_related hstart hguard
    (fun t t' ht hfollows => hfollows.round (hapart t ht)) h
  exact ⟨c', cs', hrun, hcs⟩

/-- A loop folds its body over the entries it goes through. -/
theorem pmm_run {memory : Ram} (h : (loopOver kernelEnd mbi visit).run n t = some (c, cs))
    (hload : ∀ u ∈ cs, MmapEntry.load (u.pmm.memory kernelEnd) u.entry = MmapEntry.load memory u.entry) :
    c.pmm = ((cs.map MapCursor.entry).map (MmapEntry.load memory)).foldl visit t.pmm := by
  induction n generalizing t cs with
  | zero => cases h
  | succ n ih =>
    cases hg : (loopOver kernelEnd mbi visit).guard t with
    | false =>
      rw [Loop.run_succ_of_not_guard hg] at h
      cases h
      rfl
    | true =>
      rw [Loop.run_succ_of_guard hg] at h
      obtain ⟨⟨c', cs'⟩, hr, heq⟩ := Option.map_eq_some_iff.mp h
      cases heq
      rw [List.map_cons, List.map_cons, List.foldl_cons,
        ih hr fun u hu => hload u (List.mem_cons_of_mem _ hu), pmm_round, hload t List.mem_cons_self]

/-- The body of `init` only adds up. -/
theorem foldl_addLength (map : List MmapEntry) : map.foldl addLength s =
    { s with memorySize := map.foldl (fun size entry => size + entry.len_low) s.memorySize } := by
  induction map generalizing s with
  | nil => rfl
  | cons e map ih => rw [List.foldl_cons, ih]; rfl

theorem pmm_run_init (h : (loopOver kernelEnd mbi addLength).run n (start mbi s) = some (c, cs)) :
    c.pmm = ((cs.map MapCursor.entry).map (MmapEntry.load (s.memory kernelEnd))).foldl addLength s := by
  refine pmm_run h ?_
  intro u hu
  have hmap := memoryMap_begins (((Loop.run_spec h).2 u).mp hu)
  unfold PMM.memory
  rw [hmap]

theorem byte_fill_run_init (h : (loopOver kernelEnd mbi addLength).run n (start mbi s) = some (c, cs)) :
    ∀ i, 2 ^ 18 ≤ i → c.pmm.fill.memoryMap.byte i = s.memoryMap.byte i := by
  intro i hi
  rw [byte_fill_of_le hi, pmm_run_init h, foldl_addLength]

theorem byte_begins_initPMM (h : (loopOver kernelEnd mbi setRegion).Begins c t) :
    ∀ i, 2 ^ 18 ≤ i → t.pmm.memoryMap.byte i = c.pmm.memoryMap.byte i := by
  induction h with
  | first _ => exact fun _ _ => rfl
  | next _ _ ih => exact fun i hi => (byte_setRegion_of_le hi).trans (ih i hi)

theorem map_entry_of_follows {cs' : List MapCursor} (h : List.Forall₂ (Follows s) cs cs') :
    cs'.map MapCursor.entry = cs.map MapCursor.entry := by
  induction h with
  | nil => rfl
  | cons hc _ ih => rw [List.map_cons, List.map_cons, hc.entry, ih]

/-- Refinement. On a map in memory that the bitmap does not meet, `init` does what it does on the list of the
    entries it goes through. -/
theorem init_eq_init_list (hapart : mbi.BitmapApart kernelEnd)
    (h : MapTraversal.init kernelEnd mbi s fuel = some (s', entries))
    (hinside : ∀ entry ∈ entries, mbi.Contains entry) :
    ∃ visited, entries = visited ++ visited ∧
      s' = s.init (visited.map (MmapEntry.load (s.memory kernelEnd))) := by
  obtain ⟨c, cs, c', cs', hrun, hrun', rfl, rfl⟩ := init_eq_some_iff.mp h
  have hcontains : ∀ t ∈ cs', mbi.Contains t.entry := fun t ht =>
    hinside _ (List.mem_append_right _ (List.mem_map_of_mem ht))
  have hfill := byte_fill_run_init hrun
  have hfirst : ∀ t, (loopOver kernelEnd mbi addLength).Begins (start mbi s) t → mbi.Contains t.entry := fun t ht =>
    hinside _ (List.mem_append_left _ (List.mem_map_of_mem (((Loop.run_spec hrun).2 t).mpr ht)))
  obtain ⟨d, ds, hd, hfollows⟩ := run_initPMM (fun t ht i hi => apart_of_contains hapart (hfirst t ht)
    (hi.trans (by decide))) hfill hrun
  obtain ⟨rfl, rfl⟩ := Prod.mk.inj (Option.some.inj (hrun'.symm.trans hd))
  refine ⟨cs.map MapCursor.entry, by rw [map_entry_of_follows hfollows], ?_⟩
  have hload : ∀ u ∈ cs', MmapEntry.load (u.pmm.memory kernelEnd) u.entry =
      MmapEntry.load (s.memory kernelEnd) u.entry := fun u hu =>
    load_memory_of_apart hapart (hcontains u hu) fun i hi =>
      (byte_begins_initPMM (((Loop.run_spec hrun').2 u).mp hu) i hi).trans (hfill i hi)
  rw [pmm_run hrun' hload, map_entry_of_follows hfollows, pmm_run_init hrun, foldl_addLength]
  rfl

namespace EntriesAdjoin

/-- Each entry leads to the one behind it, and the last one behind the buffer. -/
theorem next_eq (h : EntriesAdjoin kernelEnd mbi s n) {k : ℕ} (hk : k < n) :
    mbi.next (s.memory kernelEnd) (24 * k) = 24 * (k + 1) := by
  have hend := h.end_lt
  have hsize : (20 : U32).toNat = 20 := rfl
  rw [MultibootInfo.next, h.size_eq k hk, hsize]
  omega

theorem hasRoom_iff (h : EntriesAdjoin kernelEnd mbi s n) {k : ℕ} : mbi.HasRoom (24 * k) ↔ k < n := by
  have hlength := h.length_eq
  unfold MultibootInfo.HasRoom sizeofMmapEntry
  omega

theorem leads (h : EntriesAdjoin kernelEnd mbi s n) {k offset : ℕ}
    (hleads : mbi.Leads (s.memory kernelEnd) (24 * k) offset) : k < n ∧ offset = 24 * (k + 1) := by
  have hk := h.hasRoom_iff.mp hleads.1
  exact ⟨hk, hleads.2.trans (h.next_eq hk)⟩

/-- The size fields lead from entry to entry. -/
theorem reaches (h : EntriesAdjoin kernelEnd mbi s n) {offset : ℕ}
    (hreach : mbi.Reaches (s.memory kernelEnd) offset) : ∃ k ≤ n, offset = 24 * k := by
  induction hreach with
  | refl => exact ⟨0, Nat.zero_le n, rfl⟩
  | tail _ hleads ih =>
    obtain ⟨k, -, rfl⟩ := ih
    obtain ⟨hk, rfl⟩ := h.leads hleads
    exact ⟨k + 1, hk, rfl⟩

end EntriesAdjoin

end Both

end Pros
