import Pros.FS.Dump
import Pros.FS.Proofs.MountTreeProofs
import Pros.Lib.Proofs.AppendProofs
import Pros.MM.Proofs.HeapUseProofs

/-!
# What a dump prints

A dump goes through the nodes in preorder, and indents each by the columns of its path (`dumpRecursive_eq`). Every
buffer begins with a zero (`UseInv`), so that an indentation of 31 columns fits. Whether a dump stays in its buffers
so depends on the mounted paths and on the room in the heap alone (`dumps_safely_iff`).
-/

namespace Pros

open RamString Heap

variable {F : Type} {v : VFS F} {ops : List (CString × Option F)} {path : ℕ → List CString}
  {i fuel : ℕ}

/-! ## An indentation -/

/-- Each column is one `strcat`, so what is stored to are the columns and the terminator behind them. -/
theorem indent_eq {mem : Ram} {p : U32} {s : CString} (offset : ℕ) (h : StringAt mem p s)
    (hlen : s.length + offset < 2 ^ 32) (hf : s.length + offset ≤ fuel) :
    ∃ mem', VFS.indent fuel p offset mem = some mem' ∧
      (∀ w, w ∈ mem'.written ↔ w ∈ mem.written ∨ 0 < offset ∧ Within (p + ((s.length : ℕ) : U32)) offset w) ∧
      ∀ w, ¬ Within (p + ((s.length : ℕ) : U32)) offset w → mem'.byte w = mem.byte w := by
  induction offset generalizing mem s with
  | zero => exact ⟨mem, rfl, fun w => by simp, fun w _ => rfl⟩
  | succ offset ih =>
    have hspace : [space].length = 1 := rfl
    have hslen : (s ++ [space]).length = s.length + 1 := List.length_append
    obtain ⟨mem1, hmem1, hstr, hw1, hb1⟩ := strcat_eq [space] h (by omega) (by omega : s.length < fuel)
    obtain ⟨mem2, hmem2, hw2, hb2⟩ := ih hstr (by omega) (by omega)
    rw [hslen, ← add_cast_add_one] at hw2 hb2
    rw [hspace] at hw1 hb1
    refine ⟨mem2, by rw [VFS.indent, hmem1]; exact hmem2, fun w => ?_, fun w hw => ?_⟩
    · rw [hw2, hw1, within_succ, within_zero, within_succ, or_assoc]
      refine or_congr_right ?_
      rcases Nat.eq_zero_or_pos offset with rfl | hpos
      · simp [within_zero]
      · have hself : w = p + ((s.length : ℕ) : U32) + 1 → Within (p + ((s.length : ℕ) : U32) + 1) offset w := by
          rintro rfl
          exact ⟨0, Nat.zero_le _, by simp⟩
        constructor
        · rintro ((hw | hw) | ⟨-, hw⟩)
          · exact ⟨Nat.succ_pos _, Or.inl hw⟩
          · exact ⟨Nat.succ_pos _, Or.inr (hself hw)⟩
          · exact ⟨Nat.succ_pos _, Or.inr hw⟩
        · rintro ⟨-, hw | hw⟩
          · exact Or.inl (Or.inl hw)
          · exact Or.inr ⟨hpos, hw⟩
    · rw [within_succ, not_or] at hw
      rw [hb2 w hw.2, hb1]
      rw [within_succ, within_zero, not_or]
      refine ⟨hw.1, ?_⟩
      rintro rfl
      exact hw.2 ⟨0, Nat.zero_le _, by simp⟩

/-- What a column more than 31 stores to is behind a buffer of 32 bytes. -/
theorem within_buffer_iff (tmp : U32) {n : ℕ} (hn : n < 2 ^ 32) :
    (∀ w, 0 < n ∧ Within tmp n w → w ∈ bytesAt tmp 32) ↔ n ≤ 31 := by
  constructor
  · intro h
    by_contra hlt
    obtain ⟨k, hk, heq⟩ := h (tmp + ((32 : ℕ) : U32)) ⟨by omega, 32, by omega, rfl⟩
    exact absurd (BitVec.add_cast_inj (by decide) (by omega) heq) (by omega)
  · rintro h w ⟨-, k, hk, rfl⟩
    exact ⟨k, by omega, rfl⟩

/-! ## A node -/

section Node

variable {heap : Heap} {live : List (U32 × U32)} {bs : List Block} {offset : U32} {visits visits' : List DumpVisit}

/-- The kernel's heap, as it is used. -/
abbrev KernelHeapInv (heap : Heap) (live : List (U32 × U32)) (bs : List Block) : Prop :=
  UseInv KERNEL_HEAP_START.toNat KERNEL_HEAP_SIZE.toNat ⟨heap, live⟩ bs

/-- The buffer behind the blocks `bs`. -/
def nextBuffer (bs : List Block) : U32 := ptr (KERNEL_HEAP_START.toNat + extent bs + 20)

/-- A request for a buffer is a comparison with the counter. -/
theorem KernelHeapInv.malloc (h : KernelHeapInv heap live bs) :
    { heap with mem := heap.mem.clearLog }.malloc 32 =
      if extent bs + 32 + 20 < KERNEL_HEAP_SIZE.toNat then
        some (nextBuffer bs,
          { heap with mem := heap.mem.clearLog }.split (ptr (KERNEL_HEAP_START.toNat + extent bs)) 32)
      else some (nullptr, { heap with mem := heap.mem.clearLog }) := by
  have hsize : KERNEL_HEAP_SIZE.toNat = 0x100000 := rfl
  have hlt := h.lt_arena
  have hnowrap : NoWrap (HeapClient.freshLog ⟨heap, live⟩) 32 := by
    have hused := h.freshLog.used_eq
    simp only at hused
    rw [NoWrap, hused, show (32 : U32).toNat = 32 from rfl]
    omega
  exact h.freshLog.toBumpInv.malloc_eq (by decide) (by decide) hnowrap

/-- Without room for a buffer and the header behind it a node cannot be printed. -/
theorem dumpNode_none (h : KernelHeapInv heap live bs) (hroom : ¬ extent bs + 73 ≤ KERNEL_HEAP_SIZE.toNat) :
    VFS.dumpNode fuel i offset heap visits = none := by
  have hstart : KERNEL_HEAP_START.toNat = 0xC0400000 := rfl
  have hsize : KERNEL_HEAP_SIZE.toNat = 0x100000 := rfl
  rw [VFS.dumpNode, h.malloc]
  split_ifs with hlt
  · have hlast := h.freshLog.toBumpInv.last_mem_written (n := 32) (by decide)
    have hout : ptr (KERNEL_HEAP_START.toNat + extent bs + 40 + (32 : U32).toNat) ∉
        heapArena KERNEL_HEAP_START KERNEL_HEAP_SIZE := by
      rw [show (32 : U32).toNat = 32 from rfl, heapArena, Set.mem_ofPred_eq, toNat_ptr_of_lt (by omega)]
      omega
    exact if_pos (Or.inr ⟨_, hlast, hout⟩)
  · simp only [Option.bind_eq_bind, Option.bind_some]
    exact if_pos (Or.inl trivial)

/-- With room there is a buffer, and its first byte is zero. -/
theorem KernelHeapInv.buffer (h : KernelHeapInv heap live bs) (hlive : live ≠ [])
    (hroom : extent bs + 73 ≤ KERNEL_HEAP_SIZE.toNat) :
    ∃ heap', { heap with mem := heap.mem.clearLog }.malloc 32 = some (nextBuffer bs, heap') ∧
      (∀ w ∈ heap'.mem.written, w ∈ heapArena KERNEL_HEAP_START KERNEL_HEAP_SIZE) ∧
      KernelHeapInv heap' ((nextBuffer bs, 32) :: live) (bs ++ [⟨32, true⟩]) ∧
      heap'.mem.byte (nextBuffer bs) = 0 := by
  have hstart : KERNEL_HEAP_START.toNat = 0xC0400000 := rfl
  have hsize : KERNEL_HEAP_SIZE.toNat = 0x100000 := rfl
  have h32 : (32 : U32).toNat = 32 := rfl
  have hfresh := h.freshLog
  have hmalloc := h.malloc
  rw [if_pos (by omega)] at hmalloc
  refine ⟨_, hmalloc, fun w hw => ?_, ?_, ?_⟩
  · rcases hfresh.toBumpInv.written_split (by decide) hw with hw | ⟨x, h1, h2, rfl⟩
    · exact absurd hw List.not_mem_nil
    · rw [h32] at h2
      rw [heapArena, Set.mem_ofPred_eq, toNat_ptr_of_lt (by omega)]
      omega
  · exact hfresh.split (n := 32) (by decide) (by decide) (by decide) (by rw [h32]; omega)
  · exact (hfresh.toBumpInv.first_byte_split (n := 32) (by decide) (by rw [h32]; omega) (by decide)).trans
      (h.blank hlive)

/-- With room the node is printed. The heap's lists survive if the indentation fits. -/
theorem dumpNode_eq (i : ℕ) (offset : U32) (visits : List DumpVisit) (h : KernelHeapInv heap live bs)
    (hlive : live ≠ []) (hroom : extent bs + 73 ≤ KERNEL_HEAP_SIZE.toNat) (hf : 2 ^ 32 ≤ fuel) :
    ∃ heap' stores, VFS.dumpNode fuel i offset heap visits =
        some (heap', visits ++ [⟨i, nextBuffer bs, stores⟩]) ∧
      (∀ w, w ∈ stores ↔ 0 < offset.toNat ∧ Within (nextBuffer bs) offset.toNat w) ∧
      (offset.toNat ≤ 31 → KernelHeapInv heap' ((nextBuffer bs, 32) :: live) (bs ++ [⟨32, true⟩])) := by
  have hstart : KERNEL_HEAP_START.toNat = 0xC0400000 := rfl
  have hsize : KERNEL_HEAP_SIZE.toNat = 0x100000 := rfl
  have hspan : extent (bs ++ [⟨32, true⟩]) = extent bs + 52 := by
    rw [extent_append, extent_cons, extent_nil, Block.span_mk]
  obtain ⟨heap', hmalloc, hwritten, hinv, hfirst⟩ := h.buffer hlive hroom
  have hne : nextBuffer bs ≠ nullptr := ptr_ne_nullptr (by omega) (by omega)
  have hstr : StringAt (memset heap'.mem (nextBuffer bs) 0 32).clearLog (nextBuffer bs) [] := by
    have hkeep : (memset heap'.mem (nextBuffer bs) 0 32).byte (nextBuffer bs + ((0 : ℕ) : U32)) =
        heap'.mem.byte (nextBuffer bs + ((0 : ℕ) : U32)) := byte_memset_first (by decide)
    rw [Nat.cast_zero, add_zero] at hkeep
    exact hkeep.trans hfirst
  obtain ⟨mem, hindent, hstores, hbyte⟩ := indent_eq offset.toNat hstr (by simpa using offset.isLt)
    ((by simpa using offset.isLt.le : _ ≤ 2 ^ 32).trans hf)
  simp only [List.length_nil, Nat.cast_zero, add_zero, Memory.written_clearLog, List.not_mem_nil, false_or]
    at hstores hbyte
  refine ⟨{ heap' with mem := mem }, mem.written, ?_, hstores, fun hcols => hinv.congr_last fun x h1 h2 hout => ?_⟩
  · have hpages : ¬ (nextBuffer bs = nullptr ∨ ∃ w ∈ heap'.mem.written,
        w ∉ heapArena KERNEL_HEAP_START KERNEL_HEAP_SIZE) := by
      rintro (hnull | ⟨w, hw, hout⟩)
      · exact hne hnull
      · exact hout (hwritten w hw)
    rw [VFS.dumpNode, hmalloc]
    simp only [Option.bind_eq_bind, Option.bind_some, if_neg hpages, hindent]
    rfl
  · -- `memset` stores to the low byte of the next header's link as well.
    have hnot : ¬ Within (nextBuffer bs) offset.toNat (ptr x) := by
      rintro ⟨k, hk, heq⟩
      rw [nextBuffer, ptr_add_cast, ptr_inj (by omega) (by omega)] at heq
      omega
    refine (hbyte _ hnot).trans ?_
    rcases eq_or_ne x (KERNEL_HEAP_START.toNat + extent (bs ++ [⟨32, true⟩])) with rfl | hx
    · rw [Memory.byte_clearLog, byte_memset_of_eq hinv.toBumpInv.link_byte]
      exact hinv.toBumpInv.link_byte.symm
    · rw [Memory.byte_clearLog, nextBuffer]
      exact byte_memset_ptr_of_ne (by omega) (by omega) (by omega)

theorem dumpNode_visits {heap' : Heap} (h : VFS.dumpNode fuel i offset heap visits = some (heap', visits')) :
    ∃ x, visits' = visits ++ [x] ∧ x.node = i := by
  rw [VFS.dumpNode] at h
  obtain ⟨⟨tmp, heap1⟩, -, h⟩ := Option.bind_eq_some_iff.mp h
  dsimp only at h
  split_ifs at h
  obtain ⟨mem, -, h⟩ := Option.bind_eq_some_iff.mp h
  obtain ⟨-, rfl⟩ := Prod.mk.inj (Option.some.inj h)
  exact ⟨_, rfl, rfl⟩

/-! ## The loop over the nodes -/

/-- The dump of the nodes `l`, with the columns that each is to have. -/
def dumpNodes (fuel : ℕ) (cols : ℕ → U32) (l : List ℕ) (heap : Heap) (visits : List DumpVisit) :
    Option (Heap × List DumpVisit) :=
  l.foldlM (fun st i => VFS.dumpNode fuel i (cols i) st.1 st.2) (heap, visits)

variable {cols : ℕ → U32} {l : List ℕ}

theorem dumpNodes_cons : dumpNodes fuel cols (i :: l) heap visits =
    VFS.dumpNode fuel i (cols i) heap visits >>= fun st => dumpNodes fuel cols l st.1 st.2 := List.foldlM_cons ..

theorem dumpNodes_visits {heap' : Heap} (h : dumpNodes fuel cols l heap visits = some (heap', visits')) :
    ∃ vs, visits' = visits ++ vs ∧ vs.map DumpVisit.node = l := by
  induction l generalizing heap visits with
  | nil =>
    obtain ⟨-, rfl⟩ := Prod.mk.inj (Option.some.inj h)
    exact ⟨[], (List.append_nil _).symm, rfl⟩
  | cons i l ih =>
    rw [dumpNodes_cons] at h
    obtain ⟨⟨heap1, visits1⟩, hnode, hrest⟩ := Option.bind_eq_some_iff.mp h
    obtain ⟨x, rfl, rfl⟩ := dumpNode_visits hnode
    obtain ⟨vs, rfl, rfl⟩ := ih hrest
    exact ⟨x :: vs, (List.append_cons ..).symm, rfl⟩

/-- All nodes are printed, and stay in their buffers, if and only if there is room for the buffers and no node has
    more than 31 columns. -/
theorem dumpNodes_iff (cols : ℕ → U32) (visits : List DumpVisit) (h : KernelHeapInv heap live bs) (hlive : live ≠ [])
    (hl : l ≠ [] ∨ extent bs + 21 ≤ KERNEL_HEAP_SIZE.toNat) (hf : 2 ^ 32 ≤ fuel) :
    (∃ heap' vs, dumpNodes fuel cols l heap visits = some (heap', visits ++ vs) ∧
        ∀ x ∈ vs, ∀ w ∈ x.stores, w ∈ bytesAt x.tmp 32) ↔
      extent bs + 52 * l.length + 21 ≤ KERNEL_HEAP_SIZE.toNat ∧ ∀ i ∈ l, (cols i).toNat ≤ 31 := by
  induction l generalizing heap live bs visits with
  | nil =>
    have hroom := hl.resolve_left fun hnil => hnil rfl
    refine iff_of_true ⟨heap, [], ?_, fun x hx => absurd hx List.not_mem_nil⟩
      ⟨hroom, fun i hi => absurd hi List.not_mem_nil⟩
    rw [List.append_nil]
    rfl
  | cons i l ih =>
    rw [List.length_cons, List.forall_mem_cons, dumpNodes_cons]
    by_cases hroom : extent bs + 73 ≤ KERNEL_HEAP_SIZE.toNat
    · obtain ⟨heap1, stores, hnode, hstores, hinv⟩ := dumpNode_eq i (cols i) visits h hlive hroom hf
      have hfits := within_buffer_iff (nextBuffer bs) (cols i).isLt
      simp only [← hstores] at hfits
      rw [hnode, Option.bind_eq_bind, Option.bind_some]
      have hspan : extent (bs ++ [⟨32, true⟩]) = extent bs + 52 := by
        rw [extent_append, extent_cons, extent_nil, Block.span_mk]
      constructor
      · rintro ⟨heap', vs, hl, hall⟩
        obtain ⟨vs', hvs', -⟩ := dumpNodes_visits hl
        obtain rfl : vs = ⟨i, nextBuffer bs, stores⟩ :: vs' := by
          rw [List.append_assoc, List.append_cancel_left_eq] at hvs'
          exact hvs'
        have hcols := hfits.mp (hall _ List.mem_cons_self)
        rw [List.append_cons visits _ vs'] at hl
        obtain ⟨hrest, hcols'⟩ := (ih _ (hinv hcols) (List.cons_ne_nil _ _) (Or.inr (by omega))).mp
          ⟨heap', vs', hl, fun x hx => hall x (List.mem_cons_of_mem _ hx)⟩
        exact ⟨by omega, hcols, hcols'⟩
      · rintro ⟨hrest, hcols, hcols'⟩
        obtain ⟨heap', vs', hl, hall⟩ := (ih (visits ++ [⟨i, nextBuffer bs, stores⟩]) (hinv hcols)
          (List.cons_ne_nil _ _) (Or.inr (by omega))).mpr ⟨by omega, hcols'⟩
        rw [← List.append_cons] at hl
        exact ⟨heap', _, hl, List.forall_mem_cons.mpr ⟨hfits.mpr hcols, hall⟩⟩
    · rw [dumpNode_none h hroom]
      refine iff_of_false ?_ fun hrest => by omega
      rintro ⟨heap', vs, hnone, -⟩
      exact Option.some_ne_none _ hnone.symm

end Node

/-! ## The columns of a path -/

/-- A child is indented by the name of its parent and one column more. -/
theorem indentation_child (h : v.TreeInv ops path) (hi : i < v.fresh) {c : ℕ} (hc : c ∈ (v.nodes i).children) :
    indentation (path c) = indentation (path i) + BitVec.ofNat 32 (strlen (v.nodes i).name) + 1 := by
  have hchild : ∀ l t, indentation (l ++ [t]) = BitVec.ofNat 32 (5 + (l.map fun name => name.length + 1).sum) := by
    intro l t
    rw [indentation, if_neg (List.append_ne_nil_of_right_ne_nil _ (List.cons_ne_nil _ _)), List.dropLast_concat]
  rw [(h.tree.child i hi c hc).2, hchild]
  by_cases hroot : i = v.tree
  · rw [hroot, h.tree.path_root, h.shape.rootName]
    rfl
  · obtain ⟨p, hp, hip⟩ := h.tree.parent i hi hroot
    have hadd : ∀ a b : ℕ, BitVec.ofNat 32 (a + (b + 1)) = BitVec.ofNat 32 a + BitVec.ofNat 32 b + 1 := by
      intro a b
      rw [← Nat.add_assoc, BitVec.ofNat_add, BitVec.ofNat_add]
      rfl
    rw [(h.tree.child p hp i hip).2, hchild, List.map_append, List.sum_append, List.map_singleton,
      List.sum_singleton, ← Nat.add_assoc, hadd]
    rfl

/-! ## The traversal -/

/-- A loop whose body goes through a list of its own goes through all of them. -/
theorem foldlM_flatMap {σ ι κ : Type} {f : σ → ι → Option σ} {g : σ → κ → Option σ} {below : κ → List ι}
    {cs : List κ} (h : ∀ c ∈ cs, ∀ s, g s c = (below c).foldlM f s) (s : σ) :
    cs.foldlM g s = (cs.flatMap below).foldlM f s := by
  induction cs generalizing s with
  | nil => rfl
  | cons c cs ih =>
    rw [List.foldlM_cons, List.flatMap_cons, List.foldlM_append, h c List.mem_cons_self]
    exact congrArg _ (funext fun s => ih (fun d hd => h d (List.mem_cons_of_mem _ hd)) s)

/-- The children of a node were allocated after it, so there are at most `fresh` levels. -/
theorem dumpRecursive_eq (fuel : ℕ) (h : v.TreeInv ops path) {depth : ℕ} (hi : i < v.fresh)
    (hdepth : v.fresh ≤ i + depth) (heap : Heap) (visits : List DumpVisit) :
    v.dumpRecursive fuel depth i (indentation (path i)) heap visits =
      dumpNodes fuel (fun j => indentation (path j)) (PathTree.preorder (fun j => (v.nodes j).children) depth i)
        heap visits := by
  induction depth generalizing i heap visits with
  | zero => omega
  | succ depth ih =>
    rw [VFS.dumpRecursive, PathTree.preorder, dumpNodes_cons]
    refine congrArg _ (funext fun st => foldlM_flatMap (fun c hc st => ?_) st)
    obtain ⟨hic, hcf⟩ := h.shape.child i hi c hc
    rw [← indentation_child h hi hc]
    exact ih hcf (by omega) st.1 st.2

/-- Parents have smaller numbers, so a path is no longer than the number of its node. -/
theorem length_path_le (h : v.TreeInv ops path) (hi : i < v.fresh) : (path i).length ≤ i := by
  induction i using Nat.strong_induction_on with
  | _ i ih =>
    by_cases hroot : i = v.tree
    · rw [hroot, h.tree.path_root]
      exact Nat.zero_le _
    · obtain ⟨p, hp, hip⟩ := h.tree.parent i hi hroot
      have hlt := (h.shape.child p hp i hip).1
      rw [(h.tree.child p hp i hip).2, List.length_append, List.length_singleton]
      have := ih p hlt hp
      omega

/-- With enough fuel a dump goes through every node once. -/
theorem dump_eq (h : v.TreeInv ops path) (hfresh : v.fresh ≤ fuel) (heap : Heap) :
    ∃ l, v.dump heap fuel = dumpNodes fuel (fun j => indentation (path j)) l heap [] ∧ l.Nodup ∧
      ∀ i, i ∈ l ↔ i < v.fresh := by
  refine ⟨PathTree.preorder (fun j => (v.nodes j).children) fuel v.tree, ?_, ?_, fun i => ?_⟩
  · have hdump := dumpRecursive_eq fuel h h.shape.tree_lt (hfresh.trans (Nat.le_add_left _ _)) heap []
    rw [h.tree.path_root] at hdump
    exact hdump
  · exact h.tree.nodup_preorder (fun i hi => List.Nodup.of_map _ (h.shape.distinct i hi)) h.tree.root_mem _
  · rw [h.tree.mem_preorder h.tree.root_mem fun j hj _ => ?_, h.tree.path_root]
    · exact and_iff_left List.nil_prefix
    · have := length_path_le h hj
      rw [h.tree.path_root, List.length_nil]
      exact lt_of_le_of_lt this (lt_of_lt_of_le hj (hfresh.trans (Nat.le_add_left _ _)))

/-! ## Staying in the buffers -/

/-- The columns of all nodes are those of the prefixes of the mounted paths. -/
theorem shallow_iff (h : v.TreeInv ops path) :
    (∀ op ∈ ops, Shallow op.1) ↔ ∀ i < v.fresh, (indentation (path i)).toNat ≤ 31 := by
  constructor
  · intro hops i hi
    rcases (h.entries _).mp ⟨i, hi, rfl⟩ with hnil | ⟨op, hop, hl⟩
    · rw [hnil]
      decide
    · exact hops op hop _ hl
  · intro hcols op hop l hl
    obtain ⟨i, hi, rfl⟩ := (h.entries l).mpr (Or.inr ⟨op, hop, hl⟩)
    exact hcols i hi

/-- With enough fuel, a dump is as it should be under one and the same condition. -/
theorem dump_dumped_iff (h : v.TreeInv ops path) {heap : Heap} {live : List (U32 × U32)} {bs : List Block}
    (hinv : KernelHeapInv heap live bs) (hlive : live ≠ []) (hfuel : 2 ^ 32 + v.fresh ≤ fuel) :
    (∃ heap' visits, v.dump heap fuel = some (heap', visits) ∧ v.Dumped visits) ↔
      footprint live + 52 * v.fresh + 21 ≤ KERNEL_HEAP_SIZE.toNat ∧ ∀ op ∈ ops, Shallow op.1 := by
  obtain ⟨l, hl, hnodup, hmem⟩ := dump_eq h ((Nat.le_add_left _ _).trans hfuel) heap
  have hlength : l.length = v.fresh := by
    have hperm : l.Perm (List.range v.fresh) := (List.perm_ext_iff_of_nodup hnodup List.nodup_range).mpr
      fun i => (hmem i).trans List.mem_range.symm
    rw [hperm.length_eq, List.length_range]
  have hnil : l ≠ [] := by
    rintro rfl
    exact absurd ((hmem _).mpr h.shape.tree_lt) List.not_mem_nil
  have hiff := dumpNodes_iff (fun j => indentation (path j)) [] hinv hlive (Or.inl hnil)
    ((Nat.le_add_right _ _).trans hfuel)
  have hfootprint : footprint live = extent bs := hinv.footprint_eq
  simp only [hmem, List.nil_append, hlength] at hiff
  rw [hfootprint, shallow_iff h, hl, ← hiff]
  constructor
  · rintro ⟨heap', visits, hsome, hdumped⟩
    exact ⟨heap', visits, hsome, hdumped.fits⟩
  · rintro ⟨heap', visits, hsome, hfits⟩
    obtain ⟨vs, hvs, hnodes⟩ := dumpNodes_visits hsome
    obtain rfl : visits = vs := hvs
    refine ⟨heap', visits, hsome, by rwa [hnodes], fun i => ?_, hfits⟩
    rw [hnodes, hmem, h.isNode_iff]

/-- A dump ends without a fault, prints every node once and stays in its buffers if and only if the kernel's heap
    has room for a buffer per node and the header behind them, and no entry on the way to a mounted path has an
    indentation of more than 31 columns. -/
theorem dumps_safely_iff (hrun : Run VFS.Step VFS.init ops v) {mem : Ram} {acts : List HeapAction} {c : HeapClient}
    (huse : Run HeapClient.Uses (HeapClient.new mem KERNEL_HEAP_START KERNEL_HEAP_SIZE) acts c) (hlive : c.live ≠ []) :
    v.DumpsSafely c.heap ↔
      footprint c.live + 52 * v.fresh + 21 ≤ KERNEL_HEAP_SIZE.toNat ∧ ∀ op ∈ ops, Shallow op.1 := by
  obtain ⟨path, h⟩ := VFS.TreeInv.run hrun
  obtain ⟨bs, hinv⟩ := UseInv.run (by decide) (by decide) (by decide) huse
  constructor
  · rintro ⟨n, hn⟩
    exact (dump_dumped_iff h hinv hlive (Nat.le_add_left _ n)).mp (hn _ (Nat.le_add_right _ _))
  · exact fun hcond => ⟨2 ^ 32 + v.fresh, fun fuel hfuel => (dump_dumped_iff h hinv hlive hfuel).mpr hcond⟩

/-- A path to an entry in a directory with a name of `n` characters. -/
def entryBelow (n : ℕ) : CString := slash :: List.replicate n letterA ++ [slash, letterA]

/-- The heap after one request. -/
theorem used_kernelClient : ∃ c, Run HeapClient.Uses (HeapClient.new { byte := fun _ => 1 } KERNEL_HEAP_START
    KERNEL_HEAP_SIZE) [.call (.malloc 40)] c ∧ c.live = [(0xC0400014, 40)] := by
  have hany : ((HeapClient.new { byte := fun _ => 1 } KERNEL_HEAP_START KERNEL_HEAP_SIZE).step (.malloc 40)).any
      (fun c => decide (c.live = [(0xC0400014, 40)])) := by decide +kernel
  obtain ⟨c, hc, hlive⟩ := (Option.any_eq_true _ _).mp hany
  exact ⟨c, .snoc _ .nil ⟨hc, 40, rfl, by unfold NoWrap; decide +kernel⟩, of_decide_eq_true hlive⟩

/-- An entry below a directory with a name of 25 characters is indented by 31 columns. -/
theorem dumps_safely_two : ∃ (v : VFS Bool) (c : HeapClient),
    Run VFS.Step VFS.init [(entryBelow 25, some true)] v ∧
      Run HeapClient.Uses (HeapClient.new { byte := fun _ => 1 } KERNEL_HEAP_START KERNEL_HEAP_SIZE)
        [.call (.malloc 40)] c ∧ v.DumpsSafely c.heap := by
  obtain ⟨c, hc, hlive⟩ := used_kernelClient
  have hrun : Run (VFS.Step (F := Bool)) VFS.init [(entryBelow 25, some true)] _ :=
    .snoc (entryBelow 25, some true) .nil ⟨rfl, rfl⟩
  have hne : c.live ≠ [] := by
    rw [hlive]
    exact List.cons_ne_nil _ _
  refine ⟨_, c, hrun, hc, (dumps_safely_iff hrun hc hne).mpr ⟨?_, by decide⟩⟩
  rw [hlive]
  decide +kernel

/-- One character more makes it 32 columns, for which there is no room with the terminator. -/
theorem dump_overruns : ∃ (v : VFS Bool) (c : HeapClient),
    Run VFS.Step VFS.init [(entryBelow 26, some true)] v ∧
      Run HeapClient.Uses (HeapClient.new { byte := fun _ => 1 } KERNEL_HEAP_START KERNEL_HEAP_SIZE)
        [.call (.malloc 40)] c ∧ ¬ v.DumpsSafely c.heap := by
  obtain ⟨c, hc, hlive⟩ := used_kernelClient
  have hrun : Run (VFS.Step (F := Bool)) VFS.init [(entryBelow 26, some true)] _ :=
    .snoc (entryBelow 26, some true) .nil ⟨rfl, rfl⟩
  have hne : c.live ≠ [] := by
    rw [hlive]
    exact List.cons_ne_nil _ _
  obtain ⟨path, h⟩ := VFS.TreeInv.run hrun
  obtain ⟨bs, hinv⟩ := UseInv.run (by decide) (by decide) (by decide) hc
  refine ⟨_, c, hrun, hc, fun ⟨n, hn⟩ => ?_⟩
  have hcond := (dump_dumped_iff h hinv hne (Nat.le_add_left _ n)).mp (hn _ (Nat.le_add_right _ _))
  exact absurd hcond.2 (by decide)

end Pros
