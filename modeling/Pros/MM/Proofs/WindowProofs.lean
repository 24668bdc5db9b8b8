import Pros.MM.Proofs.InPlaceProofs
import Pros.MM.Proofs.VMMGrantProofs

/-!
# Proofs: the window

The first 4 MiB of memory stay in place at 3 GiB in every run that keeps off the kernel's part of the address space
(`WindowKept`). So tables that lie there are edited in place.
-/

namespace Pros

open MemoryManager PageEntry

/-! ## What is kept -/

section Kept

variable {m : MemoryManager} {d k : ℕ} {x phys virt : U32}

theorem lastMapped_of_outside {calls : List (U32 × U32)} {virt : U32}
    (hvirt : 0xC0000000 ≤ virt ∧ virt < 0xC0400000)
    (h : ∀ x ∈ calls, x.2 < 0xC0000000 ∨ 0xC0400000 ≤ x.2) : lastMapped calls virt = windowFrame virt := by
  induction calls with
  | nil => rfl
  | cons x calls ih =>
    rw [lastMapped, if_neg, ih fun y hy => h y (List.mem_cons_of_mem _ hy)]
    intro heq
    have hnat := congrArg BitVec.toNat heq
    have hx := h x (List.mem_cons_self ..)
    simp only [BitVec.le_def, BitVec.lt_def, show (0xC0000000 : U32).toNat = 0xC0000000 from rfl,
      show (0xC0400000 : U32).toNat = 0xC0400000 from rfl] at hvirt hx
    rw [toNat_pageOf, toNat_pageOf] at hnat
    omega

/-- The window's address of a frame. -/
theorem window_address {k : ℕ} (hk : k < 1024) :
    let virt : U32 := 0xC0000000 + BitVec.ofNat 32 (4096 * k)
    0xC0000000 ≤ virt ∧ virt < 0xC0400000 ∧ dirIndex virt = 768 ∧
      windowFrame virt = some (BitVec.ofNat 32 k) := by
  intro virt
  have hnat : virt.toNat = 0xC0000000 + 4096 * k := by
    rw [BitVec.toNat_add, BitVec.toNat_ofNat, show (0xC0000000 : U32).toNat = 0xC0000000 from rfl]
    omega
  have h1 : 0xC0000000 ≤ virt := by
    rw [BitVec.le_def, hnat, show (0xC0000000 : U32).toNat = 0xC0000000 from rfl]
    omega
  have h2 : virt < 0xC0400000 := by
    rw [BitVec.lt_def, hnat, show (0xC0400000 : U32).toNat = 0xC0400000 from rfl]
    omega
  have hwin : windowFrame virt = some (pageOf (virt - 0xC0000000)) := by
    rw [windowFrame, if_pos ⟨h1, h2⟩]
  obtain ⟨hidx, hframe⟩ := windowFrame_eq hwin
  refine ⟨h1, h2, hidx, ?_⟩
  rw [hwin, hframe, tableIndex, hnat]
  congr 2
  omega

/-- What a run outside the kernel's part of the address space keeps: the window and its table. -/
structure WindowKept (m : MemoryManager) (d : ℕ) : Prop where
  paged : Paged m d
  table_present : present (dirEntry m d 768) = true
  ne_zero : tableFrame m d 768 ≠ 0
  outside : ∀ x ∈ m.mapped, x.2 < 0xC0000000 ∨ 0xC0400000 ≤ x.2

theorem WindowKept.flatExec (h : WindowKept m d) {op : VmmOp} (hop : OutsideKernel op) :
    WindowKept (m.flatExec op) d := by
  cases op with
  | getFreePhysicalPage size => exact ⟨h.paged.getFreePhysicalPage size, h.table_present, h.ne_zero, h.outside⟩
  | mapPage phys virt =>
    have hentry : dirEntry (m.flatMapPage phys virt) d 768 = dirEntry m d 768 :=
      dirEntry_flatMapPage h.paged _ _ (by omega) (Or.inr h.table_present)
    refine ⟨h.paged.flatMapPage phys virt, ?_, ?_, ?_⟩
    · show present (dirEntry (m.flatMapPage phys virt) d 768) = true
      rw [hentry, h.table_present]
    · show tableFrame (m.flatMapPage phys virt) d 768 ≠ 0
      rw [tableFrame, hentry]
      exact h.ne_zero
    · intro x hx
      have hx' : x ∈ (m.flatMapPage phys virt).mapped := hx
      rw [mapped_flatMapPage] at hx'
      rcases List.mem_cons.mp hx' with rfl | hx'
      · have hop' : virt < 0xC0000000 ∨ 0xC0500000 ≤ virt := hop
        have hle : (0xC0400000 : U32) ≤ 0xC0500000 := by decide
        exact hop'.imp_right fun h => BitVec.le_trans hle h
      · exact h.outside x hx'

theorem HeapMapped.windowKept {k p : ℕ} (h : HeapMapped m d k p) : WindowKept m d where
  paged := h.paged
  table_present := h.window
  ne_zero h0 := absurd (h.zero 768 (by omega) h.window h0) (by omega)
  outside x hx := Or.inr (h.outside x hx).1

theorem WindowKept.flatEnsureTable (h : WindowKept m d) (virt : U32) : WindowKept (m.flatEnsureTable virt) d := by
  have hentry : dirEntry (m.flatEnsureTable virt) d 768 = dirEntry m d 768 :=
    dirEntry_flatEnsureTable h.paged _ (by omega) (Or.inr h.table_present)
  refine ⟨(h.paged.flatEnsureTable virt).1, ?_, ?_, ?_⟩
  · rw [hentry, h.table_present]
  · rw [tableFrame, hentry]
    exact h.ne_zero
  · rw [mapped_flatEnsureTable]
    exact h.outside

/-- The window leads to the frames in the first 4 MiB. -/
theorem WindowKept.walk_window (h : WindowKept m d) {k : ℕ} (hk : k < 1024) :
    m.walk (0xC0000000 + BitVec.ofNat 32 (4096 * k)) = some (BitVec.ofNat 32 k) := by
  obtain ⟨h1, h2, hidx, hwin⟩ := window_address hk
  refine (h.paged.walk_eq ((lastMapped_of_outside ⟨h1, h2⟩ h.outside).trans hwin) ?_).1
  rw [hidx]
  exact h.paged.own_of_ne_zero (by omega) h.table_present h.ne_zero

theorem frameInWindow_of_lt {t : ℕ} (ht : t < 1024) : FrameInWindow m (ptr (t * 4096)) := by
  refine Or.inl ?_
  rw [BitVec.lt_def, toNat_ptr_of_lt (by omega), show (0x400000 : U32).toNat = 0x400000 from rfl]
  omega

/-- A frame in the window, or behind a mapping of its own, is in place there. -/
theorem WindowKept.pageInPlace (h : WindowKept m d) {t : ℕ} (ht : t < 2 ^ 20)
    (hwin : FrameInWindow m (ptr (t * 4096))) : PageInPlace m (PHYS_2_VIRT (ptr (t * 4096))) ∧
      frame (m.walkDirectory (PHYS_2_VIRT (ptr (t * 4096)))) ≠ 0 := by
  have hnat : (ptr (t * 4096)).toNat = t * 4096 := toNat_ptr_of_lt (by omega)
  rw [FrameInWindow, BitVec.lt_def, hnat, show (0x400000 : U32).toNat = 0x400000 from rfl] at hwin
  rw [PageInPlace, VIRT_2_PHYS_PHYS_2_VIRT]
  rcases hwin with hlow | ⟨-, hlast, hframe⟩
  · have haddr : PHYS_2_VIRT (ptr (t * 4096)) = 0xC0000000 + BitVec.ofNat 32 (4096 * t) := by
      rw [PHYS_2_VIRT, ptr, BitVec.add_comm, Nat.mul_comm]
      rfl
    have hidx := (window_address (show t < 1024 by omega)).2.2.1
    rw [haddr, pageOf_frame ht]
    refine ⟨h.walk_window (by omega), fun h0 => h.ne_zero ?_⟩
    rw [walkDirectory_eq h.paged.dir_eq, hidx] at h0
    rw [tableFrame, dirEntry, h0]
    rfl
  · refine ⟨?_, hframe⟩
    have hp := h.paged.mapped _ _ hlast
    have hidx := dirIndex_lt (PHYS_2_VIRT (ptr (t * 4096)))
    rw [walkDirectory_eq h.paged.dir_eq] at hframe
    exact (h.paged.walk_eq hlast (h.paged.own_of_ne_zero hidx hp fun h0 => hframe (BitVec.eq_of_toNat_eq h0))).1

theorem ptr_add_PAGE_SIZE (t : ℕ) : ptr (t * 4096) + PAGE_SIZE = ptr ((t + 1) * 4096) := by
  rw [Nat.add_mul]
  exact ptr_add _ _

theorem PHYS_2_VIRT_add (x y : U32) : PHYS_2_VIRT x + y = PHYS_2_VIRT (x + y) := by
  unfold PHYS_2_VIRT
  ring

/-- With its tables in the window, `mapPage` finds them in place. -/
theorem WindowKept.tablesInPlace (h : WindowKept m d) (hd : d < 1024)
    (hwin : TableInWindow m (.mapPage phys virt)) : TablesInPlace m virt ∧ ApartFromNew m virt := by
  obtain ⟨hdir, hdir0⟩ := h.pageInPlace (by omega) (frameInWindow_of_lt hd)
  rw [← h.paged.dir_eq] at hdir hdir0
  obtain ⟨htable, hbehind⟩ := hwin
  have hedited := editedTable_of_paged h.paged virt
  have hlt := @tableFrame_lt (m.flatEnsureTable virt) d (dirIndex virt)
  rw [hedited] at htable hbehind
  obtain ⟨htable, htable0⟩ := h.pageInPlace hlt htable
  have hnext : present (m.walkDirectory virt) = false →
      PageInPlace m (PHYS_2_VIRT (editedTable m virt) + PAGE_SIZE) ∧
        frame (m.walkDirectory (PHYS_2_VIRT (editedTable m virt) + PAGE_SIZE)) ≠ 0 := by
    intro habs
    have hframe := hbehind habs
    obtain ⟨t, ht, hnew⟩ := exists_newFrame h.paged
    have hnlt := hnew.lt
    rw [← hedited, editedTable, habs, if_neg Bool.false_ne_true, ht, ptr_add_PAGE_SIZE] at hframe
    rw [editedTable, habs, if_neg Bool.false_ne_true, ht, PHYS_2_VIRT_add, ptr_add_PAGE_SIZE]
    exact h.pageInPlace (by omega) hframe
  rw [← hedited] at htable htable0
  exact ⟨⟨hdir, htable, fun habs => (hnext habs).1⟩, fun habs => Or.inr ⟨hdir0, htable0, (hnext habs).2⟩⟩

/-- A call whose tables are in the window is the one on flat memory, also if it is refused a table. -/
theorem WindowKept.exec_inPlace (h : WindowKept m d) (hd : d < 1024) {op : VmmOp} (hwin : TableInWindow m op) :
    m.exec op = some (m.flatExec op) := by
  cases op with
  | mapPage phys virt =>
    obtain ⟨hin, hapart⟩ := h.tablesInPlace hd hwin
    exact h.paged.mapPage_inPlace hin hapart phys
  | getFreePhysicalPage size => rfl

/-- Runs that stay outside the kernel's part of the address space, with their tables in the window. -/
theorem WindowKept.run {s : MemoryManager} {ops : List VmmOp} (h : WindowKept s d) (hd : d < 1024)
    (hrun : Run (fun m op m' => m.exec op = some m' ∧ OutsideKernel op ∧ TableInWindow m op) s ops m) :
    WindowKept m d := by
  refine hrun.invariant (I := fun m => WindowKept m d) h ?_
  rintro m op m' hm ⟨hexec, hop, hwin⟩
  obtain rfl := Option.some.inj (hexec.symm.trans (hm.exec_inPlace hd hwin))
  exact hm.flatExec hop

end Kept

end Pros
