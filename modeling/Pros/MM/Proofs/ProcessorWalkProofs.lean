import Pros.Boot.Proofs.LoaderProofs
import Pros.MM.ProcessorWalk
import Pros.MM.Proofs.TlbProofs

/-!
# Proofs: the page tables as the processor reads them

The processor agrees with `walk` as long as no entry of the directory has bit 7 set (`walk_eq_mapping`). No operation
changes the flags in the directory, so that the first entry's bit is the one that was in memory before.
-/

namespace Pros

open MemoryManager PageEntry
open Ia32

section Walk

variable {m : MemoryManager} {d : ℕ} {t : Machine} {a : U32}

/-! ## Words and places -/

/-- The table that an entry names. -/
theorem page_base (w : U32) : w &&& (0xFFFFF000 : U32) = frame w <<< 12 := by
  apply BitVec.eq_of_toNat_eq
  rw [toNat_and_page, BitVec.toNat_shiftLeft, Nat.shiftLeft_eq, frame, BitVec.toNat_ushiftRight,
    Nat.shiftRight_eq_div_pow]
  omega

theorem Uses.directoryEntry_eq (ht : Uses t m) (h : Paged m d) (a : U32) : t.directoryEntry a = m.walkDirectory a := by
  have hbase : t.cr .cr3 &&& 0xFFFFF000 = m.directory := by
    apply BitVec.eq_of_toNat_eq
    have hd := h.dir_settled.lt
    rw [ht.directory, toNat_and_page, directory_eq h.dir_eq, toNat_ptr_of_lt (by omega)]
    omega
  have hindex : a >>> 22 = PAGE_DIRECTORY_INDEX a := by
    apply BitVec.eq_of_toNat_eq
    rw [toNat_PAGE_DIRECTORY_INDEX, BitVec.toNat_ushiftRight, Nat.shiftRight_eq_div_pow, dirIndex]
  rw [Machine.directoryEntry, hbase, hindex, walkDirectory]
  exact Memory.load32_congr fun i _ => congrFun ht.mem _

theorem Uses.tableEntry_eq (ht : Uses t m) (a : U32) : t.tableEntry (m.walkDirectory a) a = m.walkTable a := by
  have hmask : (0xFFFFF000 : U32) = ~~~(0xFFF : U32) := by decide
  rw [Machine.tableEntry, walkTable, PAGE_GET_PHYSICAL_ADDRESS, hmask, PAGE_TABLE_INDEX]
  exact Memory.load32_congr fun i _ => congrFun ht.mem _

/-- The processor takes the tables as the memory manager does, but for an entry of the directory that has bit 7 set. -/
theorem Uses.walk_eq_mapping (ht : Uses t m) (h : Paged m d) :
    t.walk a = m.mapping a ↔ present (m.walkDirectory a) = false ∨ (m.walkDirectory a).getLsbD 7 = false := by
  have hwalk : t.walk a =
      if present (m.walkDirectory a) = false then none
      else if (m.walkDirectory a).getLsbD 7 = true then
        some ⟨(m.walkDirectory a &&& 0xFFC00000) + (a &&& 0x3FFFFF), write (m.walkDirectory a), 22⟩
      else m.mapping a := by
    rw [Machine.walk, ht.directoryEntry_eq h, ht.tableEntry_eq, ht.pae, ht.bigPages, mapping, MemoryManager.translate,
      MemoryManager.walk]
    generalize m.walkDirectory a = pde
    generalize m.walkTable a = pte
    have hbase := page_base pte
    rw [present, present, write, write]
    cases pde.getLsbD 0 <;> cases pde.getLsbD 7 <;> cases hpage : pte.getLsbD 0 <;>
      simp only [hpage, hbase, Bool.not_true, Bool.not_false, Bool.false_or, Bool.true_and, Bool.false_and,
        Bool.true_eq_false, Bool.false_eq_true, if_true, if_false, Option.map_some, Option.map_none]
  rw [hwalk]
  split_ifs with hp hbig
  · refine iff_of_true ?_ (Or.inl hp)
    rw [mapping, MemoryManager.translate, MemoryManager.walk, hp]
    rfl
  · refine iff_of_false (fun heq => ?_) (by rw [not_or]; exact ⟨hp, by rw [hbig]; decide⟩)
    obtain ⟨x, -, hx⟩ := Option.map_eq_some_iff.mp heq.symm
    exact absurd (congrArg Mapping.bits hx) (show ¬ 12 = 22 by decide)
  · exact iff_of_true rfl (Or.inr (Bool.eq_false_of_not_eq_true hbig))

end Walk

/-! ## The flags in the directory -/

section Flags

variable {m : MemoryManager} {d t : ℕ} {op : VmmOp}

/-- Operations leave the flags of the directory's entries as they are. -/
theorem getLsbD_dirEntry_flatExec (h : Paged m d) (hg : TableGranted m op) {k j : ℕ} (hk : k < 1024) (h2 : 2 ≤ j)
    (h12 : j < 12) : (dirEntry (m.flatExec op) d k).getLsbD j = (dirEntry m d k).getLsbD j := by
  cases op with
  | getFreePhysicalPage size => rfl
  | mapPage phys virt =>
    rw [flatExec, (h.flatMapPage_words phys virt).2 k hk]
    rcases flatEnsureTable_cases h virt with ⟨-, heq⟩ | ⟨habs, -⟩
    · rw [heq]
    · obtain ⟨u, -, hn⟩ := exists_freshTable h habs hg
      by_cases hki : k = dirIndex virt
      · rw [hki, hn.entry_eq, getLsbD_entryWord h12, decide_eq_false (by omega), Bool.or_false]
      · rw [(hn.frames h (dirIndex_lt virt)).1 k hk hki]

/-- No entry of the directory but the first one has bit 7 set, and the first one has if `big` is true. -/
structure BigEntry (m : MemoryManager) (d : ℕ) (big : Bool) : Prop where
  paged : Paged m d
  first : (dirEntry m d 0).getLsbD 7 = big
  others : ∀ k < 1024, k ≠ 0 → (dirEntry m d k).getLsbD 7 = false

theorem BigEntry.flatExec {big : Bool} (h : BigEntry m d big) (hg : TableGranted m op) :
    BigEntry (m.flatExec op) d big where
  paged := h.paged.flatExec op
  first := by rw [getLsbD_dirEntry_flatExec h.paged hg (by omega) (by omega) (by omega), h.first]
  others k hk hk0 := by rw [getLsbD_dirEntry_flatExec h.paged hg hk (by omega) (by omega), h.others k hk hk0]

theorem TablesAt.bigEntry (h : TablesAt m t d) (hpaged : Paged m.flatInitTables d) (hmapped : m.mapped = []) :
    ∃ big, BigEntry m.flatInitTables d big ∧ (big = false ↔ m.SmallPages) := by
  have hlt := h.lt
  have hbound := h.bound
  have hnext : m.request 1 = m.request 0 + 4096 ↔ d = t + 1 := by
    rw [show m.request 1 = ptr (d * 4096) from h.dir, show m.request 0 = ptr (t * 4096) from h.table,
      ptr_add_ofNat, ptr_inj (by omega) (by omega)]
    omega
  have hbit : (m.ram.byte (m.request 1)).getLsbD 7 = (word m.ram (1024 * d)).getLsbD 7 := by
    rw [show m.request 1 = ptr (d * 4096) from h.dir, getLsbD_byte (by omega)]
  refine ⟨_, ⟨hpaged, rfl, fun k hk hk0 => (h.cleared hmapped).directory k hk hk0 7 (by omega) (by omega)⟩, ?_⟩
  rw [SmallPages, hnext, hbit, h.getLsbD_dirEntry (by omega), decide_eq_true (by omega), Bool.true_and,
    Bool.and_eq_false_iff, decide_eq_false_iff_not, not_not]

end Flags

/-- In every run that finds its page tables in place, the processor finds what the tables say of pages of 4 KiB, if and
    only if there is no first entry in the directory or bit 7 of its first byte was clear before. -/
theorem processor_walk_iff {pmm : PMM} {entries : List MmapEntry} {ram : Ram} {dir : U32} {ops : List VmmOp}
    {m₀ m : MemoryManager} (hboot : Booted pmm entries ram dir m₀) (hrun : Run MappingStep m₀ ops m) {t : Machine}
    (ht : Uses t m) :
    (∀ a, t.walk a = m.mapping a) ↔
      present (m.walkDirectory 0) = false ∨ (bootState pmm entries ram dir).SmallPages := by
  have hres : ∀ b < 512, (bootState pmm entries ram dir).pmm.memoryMap.bit b = true := fun _ => initPMM_reserved
  obtain ⟨heq, hinit⟩ := hboot.eq_flat
  have hg := (granted_before_heap hinit).1
  obtain ⟨u, d, htables, hpaged, -⟩ := exists_tablesAt hres rfl hg
  obtain ⟨big, hbig, hsmall⟩ := htables.bigEntry hpaged rfl
  obtain ⟨-, boot, -, -, -, hfresh⟩ := initVMM_run hres rfl hboot.tables hinit
  rw [← heq] at hfresh
  have hall : BigEntry m d big := by
    have hsteps := Run.append_iff.mpr ⟨_, hfresh.imp fun _ _ _ h => h.1, hrun⟩
    refine hsteps.invariant (I := fun s => BigEntry s d big) hbig ?_
    rintro s op s' h hstep
    obtain rfl := hstep.eq_flatExec h.paged
    exact h.flatExec hstep.2.1
  have hfirst : m.walkDirectory 0 = dirEntry m d 0 := walkDirectory_eq hall.paged.dir_eq
  rw [← hsmall, ← hall.first, ← hfirst]
  constructor
  · exact fun h => (ht.walk_eq_mapping hall.paged).mp (h 0)
  · intro h a
    refine (ht.walk_eq_mapping hall.paged).mpr ?_
    have hentry : m.walkDirectory a = dirEntry m d (dirIndex a) := walkDirectory_eq hall.paged.dir_eq
    by_cases h0 : dirIndex a = 0
    · rwa [hentry, h0, ← hfirst]
    · rw [hentry]
      exact Or.inr (hall.others _ (dirIndex_lt a) h0)

/-- A processor with paging that has the memory manager's tables. -/
def processorOf (m : MemoryManager) : Machine where
  reg _ := 0
  eip := 0
  eflags := 0
  cr
    | .cr0 => 0x80000001
    | .cr3 => m.directory
    | .cr4 => 0x10
  tlb _ := none
  mem := m.ram

theorem uses_processorOf (m : MemoryManager) : Uses (processorOf m) m where
  directory := rfl
  bigPages := show (0x10 : U32).getLsbD 4 = true by decide
  pae := show (0x10 : U32).getLsbD 5 = false by decide
  mem := rfl

/-- The small machine has nothing but zeros in memory before, and a page at 1 GiB is mapped. -/
theorem processor_walk_smallPc : ∃ m₀ m t,
    Booted ⟨MB 16, 0, 0, { byte := fun _ => 0 }⟩ smallPc { byte := fun _ => 0 } 0 m₀ ∧
      Run MappingStep m₀ [.mapPage 0x1000 0x40000000] m ∧ Uses t m ∧ ∀ a, t.walk a = m.mapping a := by
  obtain ⟨m₀, m, hboot, hstep, -⟩ := smallPc_next { byte := fun _ => 0 } 0x1000
    0x40000000 (by decide) (by decide) (by decide)
  have hrun : Run MappingStep m₀ [.mapPage 0x1000 0x40000000] m := .snoc _ .nil hstep
  have hsmall : (bootState ⟨MB 16, 0, 0, { byte := fun _ => 0 }⟩ smallPc { byte := fun _ => 0 } 0).SmallPages :=
    Or.inr (show (0 : U8).getLsbD 7 = false by decide)
  exact ⟨m₀, m, _, hboot, hrun, uses_processorOf m,
    (processor_walk_iff hboot hrun (uses_processorOf m)).mpr (Or.inr hsmall)⟩

/-! ## The new directory -/

section Switch

variable {m : MemoryManager} {d u : ℕ} {s t : Machine}

theorem BehindWindow.translate_eq (h : BehindWindow t) {a : U32} : t.translate a = kernelWindow a := by
  rw [Machine.translate, if_pos h.paging, h.walk]
  cases hμ : t.tlb a with
  | none => rfl
  | some μ => rw [Option.some_or, h.cached a μ hμ]

/-- Until then `initVMM` finds its pointers where the processor finds them behind the loader's directory. -/
theorem loaderTranslation_eq_translate (h : BehindWindow t) (ram : Ram) (a : U32) :
    loaderTranslation ram a = (t.translate a).map Mapping.place := by
  have hiff : (0xC0000000 ≤ a ∧ a < 0xC0400000) ↔ 0xC0000000 ≤ a.toNat ∧ a.toNat < 0xC0400000 :=
    and_congr BitVec.le_def BitVec.lt_def
  rw [h.translate_eq, loaderTranslation, kernelWindow]
  simp only [hiff]
  split_ifs
  · exact congrArg some (congrArg (a - ·) (show GB 3 = KERNEL_VIRTUAL_BASE by decide))
  · rfl

/-- The new tables have the window where the old directory had it. -/
theorem TablesAt.mapping_window (h : TablesAt m u d) (hpaged : Paged m.flatInitTables d) {a : U32}
    (ha : 0xC0000000 ≤ a.toNat) (ha' : a.toNat < 0xC0400000) :
    m.flatInitTables.mapping a = some ⟨a - KERNEL_VIRTUAL_BASE, true, 12⟩ ∧
      (m.flatInitTables.walkDirectory a).getLsbD 7 = false := by
  have hidx : dirIndex a = 768 := by
    rw [dirIndex]
    omega
  have hdir : m.flatInitTables.walkDirectory a = entryWord 0 (BitVec.ofNat 32 u) := by
    rw [walkDirectory_eq hpaged.dir_eq, hidx]
    exact (words_flatInitTables h.table h.dir h.lt h.bound).2.1
  have htable : m.flatInitTables.walkTable a = entryWord 0 (BitVec.ofNat 32 (tableIndex a)) := by
    rw [walkTable_eq, walkDirectory_eq hpaged.dir_eq]
    exact h.tableEntry_eq hidx
  have hlt := tableIndex_lt a
  have hbase := toNat_sub_base ha
  have hindex : (BitVec.ofNat 32 (tableIndex a)).toNat = tableIndex a := by
    rw [BitVec.toNat_ofNat]
    omega
  have hframe : frame (m.flatInitTables.walkTable a) = pageOf (a - KERNEL_VIRTUAL_BASE) := by
    rw [htable, frame_entryWord (by omega)]
    apply BitVec.eq_of_toNat_eq
    rw [hindex, toNat_pageOf, hbase, tableIndex]
    omega
  have hwalk : m.flatInitTables.walk a = some (pageOf (a - KERNEL_VIRTUAL_BASE)) := by
    rw [MemoryManager.walk, hframe, hdir, htable, present_entryWord, present_entryWord]
    rfl
  have hplace : m.flatInitTables.translate a = some (a - KERNEL_VIRTUAL_BASE) :=
    translate_eq_some_iff.mpr ⟨hwalk, by omega⟩
  constructor
  · rw [mapping, hplace, hdir, htable, write_entryWord, write_entryWord]
    rfl
  · rw [hdir, getLsbD_entryWord (by omega), decide_eq_false (by omega), Bool.or_false]
    exact BitVec.getLsbD_zero

/-- After `k` of the two instructions. -/
structure Switching (m : MemoryManager) (mov invlpg : List U8) (s : Machine) (k : ℕ) (t : Machine) : Prop where
  eip : t.eip = s.eip + (((if k = 0 then [] else if k = 1 then mov else mov ++ invlpg).length : ℕ) : U32)
  reg : t.reg = s.reg
  mem_eq : t.mem = s.mem
  behind : k = 0 → BehindWindow t
  uses : 0 < k → Uses t m ∧ t.paging = true ∧ ∀ a μ, t.tlb a = some μ → t.walk a = some μ

theorem Switching.fresh {mov invlpg : List U8} {k : ℕ} (h : Switching m mov invlpg s k t) (hk : 0 < k) (a : U32) :
    t.translate a = t.walk a := by
  obtain ⟨-, hp, hcache⟩ := h.uses hk
  rw [Machine.translate, if_pos hp]
  cases hμ : t.tlb a with
  | none => rfl
  | some μ => rw [Option.some_or, hcache a μ hμ]

/-- The kernel's 4 MiB are at their place before and after the directory is replaced. -/
theorem Switching.reaches {mov invlpg : List U8} {k : ℕ} (h : Switching m.flatInitTables mov invlpg s k t)
    (htables : TablesAt m u d) (hpaged : Paged m.flatInitTables d) {a : U32} (ha : 0xC0000000 ≤ a.toNat)
    (ha' : a.toNat < 0xC0400000) : t.Reaches a (a - KERNEL_VIRTUAL_BASE) ∧
      (0 < k → t.translate a = some ⟨a - KERNEL_VIRTUAL_BASE, true, 12⟩) := by
  obtain ⟨hmapping, hsmall⟩ := htables.mapping_window hpaged ha ha'
  have hnew : 0 < k → t.translate a = some ⟨a - KERNEL_VIRTUAL_BASE, true, 12⟩ := fun hk => by
    rw [h.fresh hk, ((h.uses hk).1.walk_eq_mapping hpaged).mpr (Or.inr hsmall), hmapping]
  refine ⟨?_, hnew⟩
  by_cases hk : 0 < k
  · exact ⟨_, hnew hk, rfl, rfl⟩
  · have hwindow : kernelWindow a = some ⟨a - KERNEL_VIRTUAL_BASE, true, 22⟩ := if_pos ⟨ha, ha'⟩
    exact ⟨_, (h.behind (by omega)).translate_eq.trans hwindow, rfl, rfl⟩

/-- The instructions stay in memory, and under the processor. -/
theorem Switching.load8 {mov invlpg : List U8} {k : ℕ} {r : X86.Reg} (h : Switching m.flatInitTables mov invlpg s k t)
    (htables : TablesAt m u d) (hpaged : Paged m.flatInitTables d) (hcode : AtSetPageDirectory r mov invlpg s) {j : ℕ}
    (hj : j < (mov ++ invlpg).length) : t.load8 (s.eip + (j : U32)) = some ((mov ++ invlpg).get ⟨j, hj⟩) := by
  have hstart := hcode.start
  have hstop := hcode.stop
  have hplace : (s.eip + (j : U32)).toNat = s.eip.toNat + j := BitVec.toNat_add_cast (by omega)
  rw [((h.reaches htables hpaged (by omega) (by omega)).1).load8, h.mem_eq, ← sub_base_add, hcode.bytes j hj]

/-- `cr3` is loaded. -/
theorem Switching.step_mov {mov invlpg : List U8} {r : X86.Reg} (h : Switching m.flatInitTables mov invlpg s 0 t)
    (htables : TablesAt m u d) (hpaged : Paged m.flatInitTables d) (hcode : AtSetPageDirectory r mov invlpg s)
    (hr : s.reg r = m.flatInitTables.directory) (hmem : s.mem.byte = m.flatInitTables.ram.byte) :
    ∃ t', t.step = some t' ∧ Switching m.flatInitTables mov invlpg s 1 t' := by
  have heip : t.eip = s.eip := h.eip.trans (add_zero _)
  have hs := h.behind rfl
  have hstep := Machine.step_of_encodes (heip.symm ▸ hcode.encodes_mov) fun j hj => by
    rw [heip, h.load8 htables hpaged hcode (show j < (mov ++ invlpg).length by rw [List.length_append]; omega)]
    simp only [List.get_eq_getElem, List.getElem_append_left hj]
  refine ⟨_, hstep, ⟨congrArg (· + ((mov.length : ℕ) : U32)) heip, h.reg, h.mem_eq, fun hk => absurd hk (by omega),
    fun _ => ⟨⟨?_, hs.bigPages, hs.pae, ?_⟩, hs.paging, ?_⟩⟩⟩
  · have hcr3 : Function.update t.cr .cr3 (t.reg r) .cr3 = t.reg r := Function.update_self ..
    exact hcr3.trans ((congrFun h.reg r).trans hr)
  · exact (congrArg Memory.byte h.mem_eq).trans hmem
  · intro a μ (hμ : (if t.globalPages then t.tlb else fun _ => none) a = some μ)
    rw [hs.globalPages] at hμ
    cases hμ

/-- Nothing is cached that would have to go. -/
theorem Switching.step_invlpg {mov invlpg : List U8} {r : X86.Reg} (h : Switching m.flatInitTables mov invlpg s 1 t)
    (htables : TablesAt m u d) (hpaged : Paged m.flatInitTables d) (hcode : AtSetPageDirectory r mov invlpg s) :
    ∃ t', t.step = some t' ∧ Switching m.flatInitTables mov invlpg s 2 t' := by
  have heip : t.eip = s.eip + ((mov.length : ℕ) : U32) := h.eip
  obtain ⟨huses, hp, hcache⟩ := h.uses (by omega)
  have hstep := Machine.step_of_encodes (heip.symm ▸ hcode.encodes_invlpg) fun j hj => by
    have hlt : mov.length + j < (mov ++ invlpg).length := by rw [List.length_append]; omega
    rw [heip, add_assoc, ← Nat.cast_add, h.load8 htables hpaged hcode hlt]
    simp only [List.get_eq_getElem, List.getElem_append_right (Nat.le_add_right _ _), Nat.add_sub_cancel_left]
  refine ⟨_, hstep, ⟨?_, h.reg, h.mem_eq, fun hk => absurd hk (by omega), fun _ =>
    ⟨⟨huses.directory, huses.bigPages, huses.pae, huses.mem⟩, hp, ?_⟩⟩⟩
  · rw [if_neg (by omega), if_neg (by omega), List.length_append, Nat.cast_add, ← add_assoc, ← heip]
    rfl
  · intro a μ (hμ : (t.tlb a).filter (fun μ => a >>> μ.bits != (0 : U32) >>> μ.bits) = some μ)
    exact hcache a μ (Option.filter_eq_some_iff.mp hμ).1

theorem Switching.lookup {mov invlpg : List U8} {k : ℕ} (h : Switching m mov invlpg s k t) (a : U32) :
    Switching m mov invlpg s k (t.lookup a) := by
  have hbehind := fun hk => Machine.tlb_lookup (h.behind hk).cached (b := a) fun _ μ hμ =>
    ((h.behind hk).walk a).symm.trans hμ
  have huses := fun hk => Machine.tlb_lookup (h.uses hk).2.2 (b := a) fun _ μ hμ => hμ
  rw [Machine.lookup_eq]
  exact
    { h with
      behind := fun hk => { h.behind hk with cached := hbehind hk }
      uses := fun hk => ⟨{ (h.uses hk).1 with }, (h.uses hk).2.1, huses hk⟩ }

theorem Switching.drop {mov invlpg : List U8} {k : ℕ} (h : Switching m mov invlpg s k t) (a : U32) :
    Switching m mov invlpg s k (t.drop a) :=
  { h with
    behind := fun hk => { h.behind hk with cached := Machine.tlb_drop (h.behind hk).cached a }
    uses := fun hk => ⟨{ (h.uses hk).1 with }, (h.uses hk).2.1, Machine.tlb_drop (h.uses hk).2.2 a⟩ }

end Switch

/-- The kernel replaces the directory under its own feet: no instruction faults, and its addresses stay where they
    are, whatever the processor looks up and loses meanwhile. The tables are those that `initVMM` has set up on flat
    memory, and so they are if it comes this far. -/
theorem setPageDirectory_switches {pmm : PMM} {entries : List MmapEntry} {ram : Ram} {dir : U32}
    (hinit : AllGranted (bootState pmm entries ram dir).flatInitTables) {s : Machine} {r : X86.Reg}
    {mov invlpg : List U8} (hs : BehindWindow s) (hcode : AtSetPageDirectory r mov invlpg s)
    (hr : s.reg r = (bootState pmm entries ram dir).flatInitTables.directory)
    (hmem : s.mem.byte = (bootState pmm entries ram dir).flatInitTables.ram.byte) (events : List Event)
    (hcount : events.count .step ≤ 2) :
    (∃ t, s.after events = some t ∧ (events.count .step = 2 →
      Switched (bootState pmm entries ram dir).flatInitTables (mov ++ invlpg).length s t)) ∧
    ∀ m, (bootState pmm entries ram dir).initTables = some m → m = (bootState pmm entries ram dir).flatInitTables := by
  have hres : ∀ b < 512, (bootState pmm entries ram dir).pmm.memoryMap.bit b = true := fun _ => initPMM_reserved
  refine ⟨?_, fun m hm => initTables_eq_flat hres hm⟩
  obtain ⟨u, d, htables, hpaged, -⟩ := exists_tablesAt (m := bootState pmm entries ram dir)
    (fun _ => initPMM_reserved) rfl hinit
  generalize bootState pmm entries ram dir = m at *
  have hzero : Switching m.flatInitTables mov invlpg s 0 s :=
    ⟨(add_zero _).symm, rfl, rfl, fun _ => hs, fun hk => absurd hk (by omega)⟩
  have hstep : ∀ k t, k < 2 → Switching m.flatInitTables mov invlpg s k t →
      ∃ t', t.step = some t' ∧ Switching m.flatInitTables mov invlpg s (k + 1) t' := by
    intro k t hk h
    obtain rfl | rfl : k = 0 ∨ k = 1 := by omega
    · exact h.step_mov htables hpaged hcode hr hmem
    · exact h.step_invlpg htables hpaged hcode
  obtain ⟨t, ht, h⟩ := Machine.after_of_step hstep (fun _ _ a h => h.lookup a) (fun _ _ a h => h.drop a) hzero events
    (by omega)
  refine ⟨t, ht, fun hall => ?_⟩
  rw [hall] at h
  obtain ⟨huses, hp, -⟩ := h.uses (by omega)
  exact
    { toUses := huses
      eip := h.eip
      reg := h.reg
      mem_eq := h.mem_eq
      paging := hp
      fresh := h.fresh (by omega)
      window := fun a ha ha' => (h.reaches htables hpaged ha ha').2 (by omega) }

/-- What lies below the window's table is not written to. -/
theorem TablesAt.byte_eq {m : MemoryManager} {u d : ℕ} (h : TablesAt m u d) {x : U32} (hx : x.toNat < 4096 * u) :
    m.flatInitTables.ram.byte x = m.ram.byte x := by
  have hlt := h.lt
  have hbound := h.bound
  have hbit : ∀ ram : Ram, ∀ i < 8,
      (ram.byte x).getLsbD i = (word ram (x.toNat / 4)).getLsbD (8 * (x.toNat % 4) + i) := by
    intro ram i hi
    have hplace : x = ptr (4 * (x.toNat / 4) + (8 * (x.toNat % 4) + i) / 8) := by
      rw [show 4 * (x.toNat / 4) + (8 * (x.toNat % 4) + i) / 8 = x.toNat by omega, ptr_toNat]
    rw [word, Memory.getLsbD_load32 _ _ (by omega), ptr_add_cast, ← hplace,
      show (8 * (x.toNat % 4) + i) % 8 = i by omega]
  apply BitVec.eq_of_getLsbD_eq
  intro i hi
  rw [hbit _ i hi, hbit _ i hi, h.word_eq (Or.inl (by omega)) (by omega)]

/-- `mov cr3, eax` and `invlpg [0]`. -/
def switchCode : List U8 := [0x0F, 0x22, 0xD8] ++ [0x0F, 0x01, 0x3D, 0x00, 0x00, 0x00, 0x00]

/-- The loader's directory, and the two instructions. -/
def switchMemory : Ram where
  byte x := if x = 0x108C00 then 0x83 else (switchCode[(x - 0x101000).toNat]?).getD 0

/-- Right before the small machine loads the new directory. -/
def switchMachine (m : MemoryManager) : Machine :=
  { processorOf m with
    reg := fun _ => m.directory
    eip := 0xC0101000
    cr := fun
      | .cr0 => 0x80000001
      | .cr3 => 0x108000
      | .cr4 => 0x10 }

theorem switchMachine_behindWindow {m : MemoryManager}
    (hbyte : ∀ x : U32, x.toNat < 0x200000 → m.ram.byte x = switchMemory.byte x) :
    BehindWindow (switchMachine m) := by
  have hpae : (switchMachine m).pae = false := show (0x10 : U32).getLsbD 5 = false by decide
  have hbig : (switchMachine m).bigPages = true := show (0x10 : U32).getLsbD 4 = true by decide
  have hbase : (switchMachine m).cr .cr3 &&& 0xFFFFF000 = 0x108000 :=
    show (0x108000 : U32) &&& 0xFFFFF000 = 0x108000 by decide
  have hall : ∀ n : Fin 1024, switchMemory.load32 (0x108000 + 4 * ((n : ℕ) : U32)) = bootEntry false n := by
    decide +kernel
  have hentries : ∀ n : ℕ, n < 1024 →
      (switchMachine m).mem.load32 (0x108000 + 4 * (n : U32)) = bootEntry false n := by
    intro n hn
    rw [← hall ⟨n, hn⟩]
    refine Memory.load32_congr fun i hi => hbyte _ ?_
    have hcast : (4 : U32) * (n : U32) = ((4 * n : ℕ) : U32) := (Nat.cast_mul 4 n).symm
    have hstart : (0x108000 : U32).toNat = 0x108000 := rfl
    rw [hcast, add_assoc, ← Nat.cast_add, BitVec.toNat_add_cast (by omega), hstart]
    omega
  exact
    { paging := show (0x80000001 : U32).getLsbD 31 = true by decide
      bigPages := hbig
      pae := hpae
      globalPages := show (0x10 : U32).getLsbD 7 = false by decide
      walk := fun a => (walk_of_directory hpae hbig hbase hentries a).trans (bootMapping_false a)
      cached := fun _ _ h => absurd h (Option.some_ne_none _).symm }

theorem switchMachine_code {m : MemoryManager}
    (hbyte : ∀ x : U32, x.toNat < 0x200000 → m.ram.byte x = switchMemory.byte x) :
    AtSetPageDirectory .eax [0x0F, 0x22, 0xD8] [0x0F, 0x01, 0x3D, 0x00, 0x00, 0x00, 0x00] (switchMachine m) := by
  have heip : (switchMachine m).eip.toNat = 0xC0101000 := rfl
  have hmov : Encodes 0 [0x0F, 0x22, 0xD8] (.movToCr .cr3 .eax) := encodes_of_decode (by decide +kernel)
  have hinvlpg : Encodes 0 [0x0F, 0x01, 0x3D, 0x00, 0x00, 0x00, 0x00] (.invlpg 0) :=
    encodes_of_decode (by decide +kernel)
  refine ⟨hmov.move rfl, hinvlpg.move rfl, by omega, (congrArg (· + 10) heip).trans_le (by omega),
    fun j hj => ?_⟩
  have hall : ∀ j : Fin switchCode.length, switchMemory.byte (0x101000 + ((j : ℕ) : U32)) = switchCode.get j := by
    decide +kernel
  have hplace : (switchMachine m).eip - KERNEL_VIRTUAL_BASE = 0x101000 :=
    show (0xC0101000 : U32) - KERNEL_VIRTUAL_BASE = 0x101000 by decide
  have hstart : (0x101000 : U32).toNat = 0x101000 := rfl
  have hlt : j < 10 := hj
  rw [hplace]
  refine (hbyte _ ?_).trans (hall ⟨j, hj⟩)
  rw [BitVec.toNat_add_cast (by omega), hstart]
  omega

/-- The small machine, right before it loads the new directory. -/
theorem setPageDirectory_switches_smallPc :
    ∃ s t, s.after [.step, .lookup 0xC0001000, .step] = some t ∧
      Switched (bootState ⟨MB 16, 0, 0, { byte := fun _ => 0 }⟩ smallPc switchMemory 0).flatInitTables 10 s t := by
  have hinit := (granted_before_heap (flatInitVMM_smallPc { byte := fun _ => 0 } switchMemory 0).1).1
  obtain ⟨u, d, htables, -⟩ := exists_tablesAt
    (m := bootState ⟨MB 16, 0, 0, { byte := fun _ => 0 }⟩ smallPc switchMemory 0) (fun _ => initPMM_reserved) rfl hinit
  have hlow := htables.ge
  have hbyte : ∀ x : U32, x.toNat < 0x200000 →
      (bootState ⟨MB 16, 0, 0, { byte := fun _ => 0 }⟩ smallPc switchMemory 0).flatInitTables.ram.byte x =
        switchMemory.byte x := fun x hx => htables.byte_eq (by omega)
  have hr : ∀ m : MemoryManager, (switchMachine m).reg .eax = m.directory := fun _ => rfl
  have hmem : ∀ m : MemoryManager, (switchMachine m).mem.byte = m.ram.byte := fun _ => rfl
  obtain ⟨⟨t, ht, hswitched⟩, -⟩ := setPageDirectory_switches hinit (switchMachine_behindWindow hbyte)
    (switchMachine_code hbyte) (hr _) (hmem _) [.step, .lookup 0xC0001000, .step] (by decide)
  exact ⟨_, t, ht, hswitched (by decide)⟩

end Pros
