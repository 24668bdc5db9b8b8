import Pros.MM.Proofs.VirtualMemoryProofs
import Pros.MM.Proofs.OnlyMappedProofs

/-!
# Proofs: cached translations

The cache is empty when `setPageDirectory` has loaded the directory, and nothing is ever taken out of it on purpose
after that. It stays good as long as `mapPage` only adds translations, and `initVMM` itself does no more than that.
-/

namespace Pros

open MemoryManager PageEntry

/-! ## What an operation does to translations -/

section Step

variable {m : MemoryManager} {d : ℕ} {phys virt v : U32}

/-- `mapPage` maps its page. -/
theorem walk_flatMapPage_self (h : Paged m d) (hz : ZeroFrameFirst m d) (hg : TableGranted m (.mapPage phys virt)) :
    (m.flatMapPage phys virt).walk virt = some (pageOf phys) := by
  have hlast : lastMapping (m.flatMapPage phys virt) virt = some (pageOf phys) := by
    rw [lastMapping_flatMapPage, if_pos rfl]
  have h' := h.flatMapPage phys virt
  exact (h'.walk_eq hlast ((h'.own (hz.flatMapPage h hg)) (dirIndex_lt virt) (h'.mapped _ _ hlast))).1

/-- `mapPage` changes no other translation that is there. -/
theorem walk_flatMapPage_of_ne (h : Paged m d) (hz : ZeroFrameFirst m d) (hg : TableGranted m (.mapPage phys virt))
    (hne : pageOf virt ≠ pageOf v) {f : U32} (hf : m.walk v = some f) : (m.flatMapPage phys virt).walk v = some f := by
  have hpresent : present (dirEntry m d (dirIndex v)) = true := by
    rw [walk_eq_entries h.dir_eq] at hf
    split_ifs at hf with hp
    exact (Bool.and_eq_true_iff.mp hp).1
  -- The table of the page is there already, and a new table is another one.
  have hensure : dirEntry (m.flatEnsureTable virt) d (dirIndex v) = dirEntry m d (dirIndex v) ∧
      tableEntry (m.flatEnsureTable virt) d v = tableEntry m d v := by
    rcases flatEnsureTable_cases h virt with ⟨-, heq⟩ | ⟨habs, -⟩
    · rw [heq]
      exact ⟨rfl, rfl⟩
    · obtain ⟨t, -, hn⟩ := exists_freshTable h habs hg
      obtain ⟨hdir, -, htable⟩ := hn.other h (dirIndex_lt virt) (ne_of_present habs hpresent)
      exact ⟨hdir, htable hpresent⟩
  obtain ⟨h₁, hp₁⟩ := h.flatEnsureTable virt
  have hs := storesPage_flatMapPage h₁.dir_eq phys
  have hown := h₁.own (hz.flatEnsureTable h hg) (dirIndex_lt v) (hensure.1.symm ▸ hpresent)
  have hentry := hs.tableEntry_eq h₁ hp₁ hown
  rw [if_neg hne, hensure.2] at hentry
  rw [walk_eq_entries (h.flatMapPage phys virt).dir_eq, hentry, hs.dirEntry_eq h₁ hp₁ (dirIndex_lt v), hensure.1,
    ← walk_eq_entries h.dir_eq, hf]

theorem walkPage_pageOf (m : MemoryManager) (virt : U32) : m.walkPage (pageOf virt) = m.walk virt := by
  refine walk_page (BitVec.eq_of_toNat_eq ?_)
  have hlt := virt.isLt
  rw [toNat_pageOf, BitVec.toNat_shiftLeft, Nat.shiftLeft_eq, toNat_pageOf]
  omega

/-- An operation keeps the translations that are there exactly if it maps no page to another frame. -/
theorem keeps_iff (h : Paged m d) (hz : ZeroFrameFirst m d) {op : VmmOp} (hg : TableGranted m op) :
    (∀ page f, m.walkPage page = some f → (m.flatExec op).walkPage page = some f) ↔ MapsNew m op := by
  cases op with
  | getFreePhysicalPage size => exact iff_of_true (fun _ _ hf => hf) trivial
  | mapPage phys virt =>
    have hself := walk_flatMapPage_self h hz hg
    constructor
    · intro hkeep
      cases hf : m.walk virt with
      | none => exact Or.inl hf
      | some f =>
        have hf' := hkeep (pageOf virt) f ((walkPage_pageOf m virt).trans hf)
        exact Or.inr (hf.trans (((walkPage_pageOf _ virt).symm.trans hf').symm.trans hself))
    · intro hnew page f hf
      by_cases hpage : pageOf virt = pageOf (page <<< 12)
      · have hvirt : m.walk virt = some f := (walk_page hpage).trans hf
        refine (walk_page hpage).symm.trans (hself.trans ?_)
        rcases hnew with hnone | hsome
        · rw [hvirt] at hnone
          cases hnone
        · exact hsome.symm.trans hvirt
      · exact walk_flatMapPage_of_ne h hz hg hpage hf

end Step

/-! ## Booting -/

section Boot

variable {m : MemoryManager} {d k p : ℕ}

/-- An operation that finds its tables in place and maps no page to another frame. -/
def FreshStep (m : MemoryManager) (op : VmmOp) (m' : MemoryManager) : Prop := MappingStep m op m' ∧ MapsNew m op

/-- The pages of the heap that are still to be mapped have no translation. -/
structure HeapAhead (m : MemoryManager) (d k : ℕ) : Prop where
  cleared : Cleared m d
  unmapped : ∀ l, k ≤ l → l < 256 → lastMapping m (heapPage l) = none
  table : k = 0 → present (dirEntry m d 769) = false

theorem HeapAhead.walk_eq_none (hahead : HeapAhead m d k) (h : HeapMapped m d k p) (hk : k < 256) :
    m.walk (heapPage k) = none := by
  have hidx := dirIndex_heapPage hk
  rw [walk_eq_entries h.paged.dir_eq, hidx]
  cases hp : present (dirEntry m d 769) with
  | false => rfl
  | true =>
    -- There is a page table, and only its first entry may have old flags.
    have hk0 : k ≠ 0 := fun h0 => absurd (hahead.table h0) (by rw [hp]; decide)
    have hframe : tableFrame m d 769 ≠ 0 := fun h0 => absurd (h.zero 769 (by omega) hp h0) (by omega)
    have hclean := (hahead.cleared.table (heapPage k) (by rw [hidx, hp]) (by rw [hidx]; exact hframe)
      (by rw [tableIndex_heapPage hk]; exact hk0)).1 (hahead.unmapped k le_rfl hk)
    rw [hclean]
    rfl

theorem HeapAhead.step (hahead : HeapAhead m d k) (h : HeapMapped m d k p) (hk : k < 256)
    (hg : TableGranted m (.mapPage (ptr (p * 4096)) (heapPage k))) :
    HeapAhead ((m.flatMapPage (ptr (p * 4096)) (heapPage k)).getFreePhysicalPage 1).2 d (k + 1) where
  cleared := (hahead.cleared.flatMapPage h.paged h.zero hg).getFreePhysicalPage 1
  unmapped l hl hl' := by
    have hlast : lastMapping (m.flatMapPage (ptr (p * 4096)) (heapPage k)) (heapPage l) = none := by
      rw [lastMapping_flatMapPage, if_neg ((pageOf_heapPage hk hl').not.mpr (by omega)),
        hahead.unmapped l (by omega) hl']
    exact hlast
  table h0 := absurd h0 (by omega)

/-- The loop over the kernel heap maps pages that have no translation. -/
theorem HeapAhead.flatMapHeap {fuel : ℕ} (hahead : HeapAhead m d k) (h : HeapMapped m d k p) (hd : d < 1024)
    (hlow : k < 256 → editedTable m (heapPage k) < 0x3FF000) (hk : k + fuel = 257) (hle : k ≤ 256)
    (hg : AllGranted (MemoryManager.flatMapHeap m (ptr (p * 4096)) (heapPage k) fuel)) :
    ∃ ops, Run FreshStep m ops (MemoryManager.flatMapHeap m (ptr (p * 4096)) (heapPage k) fuel) := by
  induction fuel generalizing m k p with
  | zero => omega
  | succ fuel ih =>
    by_cases hlt : k < 256
    · rw [flatMapHeap_succ m _ hlt] at hg ⊢
      have hgranted : AllGranted ((m.flatMapPage (ptr (p * 4096)) (heapPage k)).getFreePhysicalPage 1).2 :=
        fun hx => hg (granted_flatMapHeap hx)
      have htable : TableGranted m (.mapPage (ptr (p * 4096)) (heapPage k)) :=
        tableGranted_of_allGranted h.paged fun hx => hgranted (List.mem_cons_of_mem _ hx)
      obtain ⟨hin, hapart⟩ := h.windowKept.tablesInPlace hd
        (tableInWindow_of_low (ptr (p * 4096)) (hlow hlt))
      obtain ⟨p', hp', h'⟩ := h.step hlt hgranted
      rw [hp'] at hg ⊢
      obtain ⟨ops, hops⟩ := ih (hahead.step h hlt htable) h' (fun hlt' => by
        rw [editedTable_flatMapPage h.paged (by rw [dirIndex_heapPage hlt', dirIndex_heapPage hlt])]
        exact hlow hlt) (by omega) (by omega) hg
      have hround : Run FreshStep m [.mapPage (ptr (p * 4096)) (heapPage k), .getFreePhysicalPage 1]
          ((m.flatMapPage (ptr (p * 4096)) (heapPage k)).getFreePhysicalPage 1).2 :=
        .cons ⟨⟨h.paged.mapPage_inPlace hin hapart _, htable, hin⟩, Or.inl (hahead.walk_eq_none h hlt)⟩
          (.cons ⟨⟨rfl, trivial, trivial⟩, trivial⟩ .nil)
      exact ⟨_, Run.append_iff.mpr ⟨_, hround, hops⟩⟩
    · obtain rfl : k = 256 := by omega
      rw [flatMapHeap_end]
      exact ⟨[], .nil⟩

/-- `initVMM` is `initTables`, which loads the directory, and operations that map pages without a translation. -/
theorem initVMM_run (hres : ∀ b < 512, m.pmm.memoryMap.bit b = true) (hmapped : m.mapped = []) (hlow : TablesLow m)
    (hg : AllGranted m.flatInitVMM) : ∃ d ops, m.initTables = some m.flatInitTables ∧ Paged m.flatInitTables d ∧
      ZeroFrameFirst m.flatInitTables d ∧ Run FreshStep m.flatInitTables ops m.flatInitVMM := by
  have hinit := initTables_inPlace hlow.1 hlow.2.1
  obtain ⟨hg₁, hnull⟩ := granted_before_heap hg
  rw [flatInitVMM_eq] at hg ⊢
  obtain ⟨t, d, htables, hpaged, hzero, hwindow, habsent⟩ := exists_tablesAt hres hmapped hg₁
  have hcleared := htables.cleared hmapped
  have hmapped' : m.flatInitTables.mapped = [] := hmapped
  have hdir : PHYS_2_VIRT (m.request 1) = PHYS_2_VIRT (ptr (d * 4096)) := hpaged.dir_eq
  have hd := directory_lt_of_low hlow.2.1 hdir hpaged.dir_settled.lt
  have hfourth := hlow.2.2
  rw [request_three] at hfourth
  generalize m.flatInitTables = s at *
  obtain ⟨p, hp, hstart⟩ := heapMapped_start hpaged hzero hwindow habsent hmapped' hnull
  have habs : ∀ l < 256, present (dirEntry (s.getFreePhysicalPage 1).2 d (dirIndex (heapPage l))) = false := by
    intro l hl
    rw [dirIndex_heapPage hl]
    exact habsent 769 (by omega) (by omega) (by omega)
  have hahead : HeapAhead (s.getFreePhysicalPage 1).2 d 0 :=
    ⟨hcleared.getFreePhysicalPage 1, fun l _ hl => lastMapping_of_absent (hpaged.getFreePhysicalPage 1) (habs l hl),
      fun _ => habsent 769 (by omega) (by omega) (by omega)⟩
  rw [hp] at hg ⊢
  obtain ⟨ops, hops⟩ := hahead.flatMapHeap hstart hd (fun _ => by
    rw [editedTable_of_absent hstart.paged (habs 0 (by omega))]
    exact hfourth) rfl (by omega) hg
  exact ⟨d, .getFreePhysicalPage 1 :: ops, hinit, hpaged, hzero, hops.cons ⟨⟨rfl, trivial, trivial⟩, trivial⟩⟩

end Boot

/-! ## Any order of operations and accesses -/

section Order

variable {m m₀ : MemoryManager} {op : VmmOp} {ops : List VmmOp}

theorem MappingStep.after_eq (h : MappingStep m₀ op m) : m₀.after op = m := by rw [after, h.1, Option.getD_some]

/-- The calls come back, so each state is the one after the call. -/
theorem mappingRun_iff : Run MappingStep m₀ ops m ↔ m = ops.foldl after m₀ ∧
    ∀ pre op, pre ++ [op] <+: ops → MappingStep (pre.foldl after m₀) op ((pre.foldl after m₀).after op) :=
  Run.of_exec_iff fun _ _ _ h => h.after_eq.symm

theorem freshRun_iff : Run FreshStep m₀ ops m ↔ m = ops.foldl after m₀ ∧
    ∀ pre op, pre ++ [op] <+: ops → FreshStep (pre.foldl after m₀) op ((pre.foldl after m₀).after op) :=
  Run.of_exec_iff fun _ _ _ h => h.1.after_eq.symm

/-- The run up to one of its calls. -/
theorem mappingRun_initial (h : Run MappingStep m₀ ops m) {pre : List VmmOp} (hpre : pre <+: ops) :
    Run MappingStep m₀ pre (pre.foldl after m₀) :=
  mappingRun_iff.mpr ⟨rfl, fun pre' op hop => (mappingRun_iff.mp h).2 pre' op (hop.trans hpre)⟩

/-- In every order of accesses and operations since `setPageDirectory` loaded the directory, the processor uses the
    translations of the page tables, exactly if none of the operations after `initVMM` maps a page that is mapped to
    another frame. The operations store behind the tables: up to the first that is not of this kind, that is where
    the processor stores, too. -/
theorem translations_fresh_iff {pmm : PMM} {entries : List MmapEntry} {ram : Ram} {dir : U32}
    (hboot : Booted pmm entries ram dir m₀) (hrun : Run MappingStep m₀ ops m) :
    ∃ s₀ boot, (bootState pmm entries ram dir).initTables = some s₀ ∧ Run MappingStep s₀ boot m₀ ∧
      ((∀ events : List (Paging.Event VmmOp U32), Paging.ops events <+: boot ++ ops →
          ((Paging.Cpu.flushed s₀).run after walkPage events).Fresh walkPage) ↔
        ∀ pre op m', pre ++ [op] <+: ops → Run MappingStep m₀ pre m' → MapsNew m' op) := by
  obtain ⟨heq, hinit⟩ := hboot.eq_flat
  obtain ⟨d, boot, htables, hpaged, hzero, hfresh⟩ := initVMM_run (m := bootState pmm entries ram dir)
    (fun _ => initPMM_reserved) rfl hboot.tables hinit
  rw [← heq] at hfresh
  generalize (bootState pmm entries ram dir).flatInitTables = s₀ at *
  have hsteps : Run MappingStep s₀ boot m₀ := hfresh.imp fun _ _ _ h => h.1
  have hall : Run MappingStep s₀ (boot ++ ops) m := Run.append_iff.mpr ⟨m₀, hsteps, hrun⟩
  refine ⟨s₀, boot, htables, hsteps, (Paging.fresh_iff _).trans ?_⟩
  have hkeeps : ∀ pre op, pre ++ [op] <+: boot ++ ops →
      ((∀ page f, (pre.foldl after s₀).walkPage page = some f →
        ((pre.foldl after s₀).after op).walkPage page = some f) ↔ MapsNew (pre.foldl after s₀) op) := by
    intro pre op hpre
    obtain ⟨⟨h, hz⟩, -⟩ := hpaged.run_inPlace hzero (mappingRun_initial hall ((List.prefix_append ..).trans hpre))
    have hstep := (mappingRun_iff.mp hall).2 pre op hpre
    rw [hstep.eq_flatExec h]
    exact keeps_iff h hz hstep.2.1
  constructor
  · intro hkept pre op m' hpre hrun'
    have hlong : boot ++ pre ++ [op] <+: boot ++ ops := by
      rw [List.append_assoc]
      exact (List.prefix_append_right_inj boot).mpr hpre
    have hnew := (hkeeps _ _ hlong).mp (hkept _ _ hlong)
    rwa [List.foldl_append, ← (mappingRun_iff.mp hsteps).1, ← (mappingRun_iff.mp hrun').1] at hnew
  · intro hnew pre op hpre
    have hops : Run FreshStep m₀ ops m := freshRun_iff.mpr ⟨(mappingRun_iff.mp hrun).1, fun pre op hop =>
      ⟨(mappingRun_iff.mp hrun).2 pre op hop,
        hnew pre op _ hop (mappingRun_initial hrun ((List.prefix_append ..).trans hop))⟩⟩
    have hwhole : Run FreshStep s₀ (boot ++ ops) m := Run.append_iff.mpr ⟨m₀, hfresh, hops⟩
    exact (hkeeps _ _ hpre).mpr ((freshRun_iff.mp hwhole).2 pre op hpre).2

/-- A page at 1 GiB is mapped on a small machine. -/
theorem translations_fresh_smallPc : ∃ m₀ m s₀ boot,
    Booted ⟨MB 16, 0, 0, { byte := fun _ => 0 }⟩ smallPc { byte := fun _ => 0 } 0 m₀ ∧
      (bootState ⟨MB 16, 0, 0, { byte := fun _ => 0 }⟩ smallPc { byte := fun _ => 0 } 0).initTables = some s₀ ∧
      Run MappingStep s₀ boot m₀ ∧ Run MappingStep m₀ [.mapPage 0x1000 0x40000000] m ∧
      ∀ events : List (Paging.Event VmmOp U32), Paging.ops events <+: boot ++ [.mapPage 0x1000 0x40000000] →
        ((Paging.Cpu.flushed s₀).run after walkPage events).Fresh walkPage := by
  obtain ⟨m₀, m, hboot, hstep, -, habs, -⟩ := smallPc_next { byte := fun _ => 0 } 0x1000
    0x40000000 (by decide) (by decide) (by decide)
  have hrun : Run MappingStep m₀ [.mapPage 0x1000 0x40000000] m := .snoc _ .nil hstep
  obtain ⟨s₀, boot, htables, hsteps, hiff⟩ := translations_fresh_iff hboot hrun
  refine ⟨m₀, m, s₀, boot, hboot, htables, hsteps, hrun, hiff.mpr fun pre op m' hpre hpast => ?_⟩
  have hlen : pre.length + 1 ≤ 1 := by simpa using hpre.length_le
  obtain rfl := List.length_eq_zero_iff.mp (by omega : pre.length = 0)
  obtain rfl := List.singleton_inj.mp (hpre.eq_of_length rfl)
  rw [Run.nil_iff.mp hpast]
  -- There is no page table for the page.
  refine Or.inl ?_
  rw [walk, habs, Bool.false_and, if_neg Bool.false_ne_true]

end Order

end Pros
