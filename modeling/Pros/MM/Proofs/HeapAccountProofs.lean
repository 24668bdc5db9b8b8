import Pros.MM.Proofs.HeapBumpProofs

/-!
# Heap accounting holds until something is freed

Without `free` the heap is a bump allocator, whose counter is right. The first `free` leaves the counter as it
is, so from then on the guard rejects a request that there is room for.
-/

namespace Pros

open MemoryChunk Heap

variable {start arena : ℕ} {c c' : HeapClient} {bs : List Block} {n p : U32} {op : HeapOp}

/-! ## The list of a bump allocator -/

/-- Linked blocks and what follows them are walked one after the other. -/
theorem walk_append {m : Ram} {before after : U32} {pos : ℕ} {cs : List U32} (hpos : 0 < pos)
    (hfit : pos + extent bs ≤ 2 ^ 32) (hl : Linked m before pos bs after) (hw : Walk m after cs) :
    Walk m (linkTo pos bs after) (chunks pos bs ++ cs) := by
  induction bs generalizing before pos with
  | nil => exact hw
  | cons b bs ih =>
    obtain ⟨hh, hbs⟩ := hl
    have hspan := b.le_span
    rw [extent_cons] at hfit
    rw [chunks_cons, linkTo_cons]
    refine ⟨ptr_ne_nullptr hpos (by omega), rfl, ?_⟩
    rw [hh.next_eq]
    exact ih (by omega) (by omega) hbs

/-- Allocated blocks take up their extent. -/
theorem allocatedBytes_chunks {m : Ram} {before after : U32} {pos : ℕ} {cs : List U32}
    (hl : Linked m before pos bs after) (hfull : ∀ b ∈ bs, b.allocated = true) :
    allocatedBytes m (chunks pos bs ++ cs) = extent bs + allocatedBytes m cs := by
  induction bs generalizing before pos with
  | nil => rw [extent_nil, Nat.zero_add]; rfl
  | cons b bs ih =>
    obtain ⟨hh, hbs⟩ := hl
    have hb : allocated m (ptr pos) = true := hh.allocated_eq.trans (hfull b List.mem_cons_self)
    have hrest := ih hbs fun d hd => hfull d (List.mem_cons_of_mem _ hd)
    unfold allocatedBytes at hrest ⊢
    rw [chunks_cons, List.cons_append, List.filter_cons_of_pos hb, List.map_cons, List.sum_cons, hrest,
      hh.size_eq, extent_cons, Block.span_eq]
    omega

theorem BumpInv.accounted (h : BumpInv start arena c bs) (hpos : 0 < start)
    (hfit : start + arena ≤ 2 ^ 32) : HeapAccounted c := by
  have hlt := h.lt_arena
  obtain ⟨k, htrail, -⟩ := h.trailing
  constructor
  · have hne : ptr (start + extent bs) ≠ nullptr := ptr_ne_nullptr (by omega) (by omega)
    have hlast : Walk c.heap.mem (ptr (start + extent bs)) [ptr (start + extent bs)] :=
      ⟨hne, rfl, htrail.next_eq⟩
    refine ⟨chunks start bs ++ [ptr (start + extent bs)], ?_, ?_⟩
    · have hwalk := walk_append hpos (by omega) h.linked hlast
      rw [h.first_eq]
      cases bs with
      | nil =>
        rw [extent_nil] at hwalk ⊢
        exact hwalk
      | cons b bs => exact hwalk
    · have hfree : ¬ allocated c.heap.mem (ptr (start + extent bs)) = true := by
        rw [htrail.allocated_eq]
        exact Bool.false_ne_true
      rw [allocatedBytes_chunks h.linked h.full, allocatedBytes, List.filter_cons_of_neg hfree]
      exact h.used_eq
  · intro n hn
    rw [h.footprint_eq, h.memorySize_eq] at hn
    have hwrap : NoWrap c.heap n := by
      have := c.heap.memorySize.isLt
      rw [NoWrap, h.used_eq]
      have := h.memorySize_eq
      omega
    rw [← Bool.not_eq_true, outOfMemory_iff h hwrap]
    omega

/-! ## Requests -/

/-- A request that is not placed anywhere fails. -/
theorem BumpInv.malloc_of_not_placed (h : BumpInv start arena c bs) (hpos : 0 < start)
    (hfit : start + arena ≤ 2 ^ 32) (hno : ∀ d, ¬ PlacedIn c.heap n d) :
    c.heap.malloc n = some (nullptr, c.heap) := by
  have hlt := h.lt_arena
  have hlen := mul_length_le_extent bs
  obtain ⟨k, htrail, -⟩ := h.trailing
  unfold malloc
  by_cases hguard : c.heap.outOfMemory n = true
  · rw [if_pos hguard]
  · rw [if_neg hguard]
    have hfuel : addresses = (addresses - bs.length - 2 + 2) + bs.length := by
      rw [addresses]
      omega
    have hfirst : c.heap.first = linkTo start bs (ptr (start + extent bs)) := by
      rw [h.first_eq]
      cases bs <;> simp
    have hne : ptr (start + extent bs) ≠ nullptr := ptr_ne_nullptr (by omega) (by omega)
    have hnofit : ∀ b ∈ bs, ¬ b.Fits n.toNat := fun b hb hf => absurd (h.full b hb) (by simp [hf.2])
    cases hsearch : search c.heap.mem n addresses c.heap.first with
    | none =>
      -- The search ends behind the trailing chunk.
      rw [hfuel, hfirst, search_skip h.linked hpos (by omega) hnofit, search, if_neg hne,
        htrail.next_eq] at hsearch
      split_ifs at hsearch
      simp [search] at hsearch
    | some d =>
      by_cases hd : d = nullptr
      · simp only [hd, if_true]
      · exact absurd ⟨Bool.eq_false_of_not_eq_true hguard, firstFit_of_search hsearch hd⟩ (hno d)

/-- The invariant is preserved by every request that is not placed with a wrapping guard. -/
theorem BumpInv.request (h : BumpInv start arena c bs) (hpos : 0 < start)
    (hfit : start + arena ≤ 2 ^ 32) (harena : arena + 20 ≤ 2 ^ 32) (hok : RequestFits c (.malloc n))
    (hstep : c.Step (.malloc n) c') : ∃ bs', BumpInv start arena c' bs' := by
  rcases hok with hwrap | hno
  · exact h.step hpos hfit harena ⟨n, rfl, hwrap⟩ hstep
  · have hfresh := h.freshLog
    have heq := hfresh.malloc_of_not_placed hpos hfit fun d hd => hno d (placedIn_freshLog.mp hd)
    obtain rfl := HeapClient.step_of_malloc hstep heq
    exact ⟨bs, hfresh⟩

/-- What a request does to the counter: nothing if it fails, otherwise it has passed the guard and is added. -/
theorem malloc_usage {h h' : Heap} (hm : h.malloc n = some (p, h')) : p = nullptr ∧ h' = h ∨
    h.outOfMemory n = false ∧ h'.memorySize = h.memorySize ∧ h'.usedMemory = h.usedMemory + (n + 20) := by
  unfold malloc at hm
  split_ifs at hm with hguard
  · obtain ⟨rfl, rfl⟩ := Prod.mk.inj (Option.some.inj hm)
    exact Or.inl ⟨rfl, rfl⟩
  · split at hm
    · cases hm
    · split_ifs at hm
      · obtain ⟨rfl, rfl⟩ := Prod.mk.inj (Option.some.inj hm)
        exact Or.inl ⟨rfl, rfl⟩
      · obtain ⟨rfl, rfl⟩ := Prod.mk.inj (Option.some.inj hm)
        exact Or.inr ⟨Bool.eq_false_of_not_eq_true hguard, rfl, rfl⟩

/-- A request that fails does not add to the live allocations, one that is placed adds to the counter. -/
theorem malloc_step (hstep : c.Step (.malloc n) c') :
    c'.live = c.live ∨ c'.heap.usedMemory = c.heap.usedMemory + (n + 20) := by
  obtain ⟨q, heap, hm, rfl⟩ := HeapClient.step_malloc hstep
  rcases malloc_usage hm with ⟨rfl, -⟩ | ⟨-, -, hused⟩
  · exact Or.inl (by simp)
  · exact Or.inr hused

/-! ## Releases -/

/-- What `free` does to the counter and the live allocations. -/
theorem free_step (hstep : c.Step (.free p) c') : c'.heap.usedMemory = c.heap.usedMemory ∧
    c'.heap.memorySize = c.heap.memorySize ∧
    ∃ x ∈ c.live, x.1 = p ∧ footprint c.live = x.2.toNat + 20 + footprint c'.live := by
  obtain ⟨x, hmem, hxp, rfl⟩ := HeapClient.step_free hstep
  refine ⟨rfl, rfl, x, hmem, hxp, ?_⟩
  have hperm := (List.perm_cons_erase hmem).map fun x => x.2.toNat + 20
  unfold footprint
  rw [hperm.sum_nat, List.map_cons, List.sum_cons]

/-- After the first `free` the guard rejects a request that there is room for. -/
theorem BumpInv.free_not_accounted (h : BumpInv start arena c bs) (harena : arena + 20 ≤ 2 ^ 32)
    (hstep : c.Step (.free p) c') : ¬ HeapAccounted c' := by
  obtain ⟨hused, hmem, x, -, -, hfoot⟩ := free_step hstep
  have hlt := h.lt_arena
  have hsize := h.memorySize_eq
  have hcount := h.used_eq
  rw [h.footprint_eq] at hfoot
  intro hacc
  -- The largest request that is left, or none if there is not even room for a header.
  have hn : (BitVec.ofNat 32 (arena - extent bs - 20)).toNat = arena - extent bs - 20 := by
    rw [BitVec.toNat_ofNat]
    omega
  have hguard := hacc.guard (BitVec.ofNat 32 (arena - extent bs - 20)) (by rw [hmem, hn, hsize]; omega)
  have hout : c.heap.outOfMemory (BitVec.ofNat 32 (arena - extent bs - 20)) = true := by
    rw [outOfMemory_iff h (by rw [NoWrap, hcount, hn]; omega), hn]
    omega
  unfold outOfMemory at hguard hout
  rw [hused, hmem, hout] at hguard
  cases hguard

/-! ## Arenas in which nothing can be allocated -/

theorem EmptyInv.accounted (h : EmptyInv c) : HeapAccounted c := by
  have h20 : (20 : U32).toNat = 20 := rfl
  constructor
  · refine ⟨[], h.first_eq, ?_⟩
    rw [usage, h.used_eq]
    rfl
  · intro n hn
    have hlt := c.heap.memorySize.isLt
    have hzero : (0 : U32) + n = n := BitVec.zero_add n
    rw [outOfMemory, decide_eq_false_iff_not, h.used_eq, hzero, ge_iff_le, BitVec.le_def,
      BitVec.toNat_add_of_lt (by omega), h20]
    omega

/-! ## Runs -/

section Runs

variable {mem : Ram} {start size : U32} {ops : List HeapOp}

/-- The invariant of a run without `free`, in any arena. -/
def AccountInv (start size : U32) (c : HeapClient) : Prop :=
  EmptyInv c ∨ 0 < start.toNat ∧ ∃ bs, BumpInv start.toNat size.toNat c bs

theorem AccountInv.new (hfit : start.toNat + size.toNat ≤ 2 ^ 32) :
    AccountInv start size (.new mem start size) := by
  by_cases hsize : size.toNat < sizeofMemoryChunk
  · exact Or.inl (.new (Or.inl hsize))
  · by_cases hstart : start = nullptr
    · exact Or.inl (.new (Or.inr hstart))
    · refine Or.inr ⟨?_, [], .new (Nat.not_lt.mp hsize) hstart hfit⟩
      exact Nat.pos_of_ne_zero fun h0 => hstart (BitVec.eq_of_toNat_eq h0)

theorem AccountInv.accounted (h : AccountInv start size c) (hfit : start.toNat + size.toNat ≤ 2 ^ 32) :
    HeapAccounted c := by
  rcases h with h | ⟨hpos, bs, h⟩
  · exact h.accounted
  · exact h.accounted hpos hfit

theorem AccountInv.request (h : AccountInv start size c) (hfit : start.toNat + size.toNat ≤ 2 ^ 32)
    (hroom : size.toNat + 20 ≤ 2 ^ 32) (hok : RequestFits c (.malloc n))
    (hstep : c.Step (.malloc n) c') : AccountInv start size c' := by
  rcases h with h | ⟨hpos, bs, h⟩
  · exact Or.inl (h.request hstep).1
  · exact Or.inr ⟨hpos, h.request hpos hfit hroom hok hstep⟩

theorem AccountInv.free_not_accounted (h : AccountInv start size c) (hroom : size.toNat + 20 ≤ 2 ^ 32)
    (hstep : c.Step (.free p) c') : ¬ HeapAccounted c' := by
  rcases h with h | ⟨-, bs, h⟩
  · exact absurd hstep h.no_free
  · exact h.free_not_accounted hroom hstep

/-- As long as nothing is freed. -/
theorem AccountInv.run (hfit : start.toNat + size.toNat ≤ 2 ^ 32) (hroom : size.toNat + 20 ≤ 2 ^ 32)
    (hrun : Run (fun c op c' => c.Step op c' ∧ RequestFits c op) (.new mem start size) ops c)
    (hops : ∀ op ∈ ops, ∃ n, op = .malloc n) : AccountInv start size c := by
  induction hrun with
  | nil => exact .new hfit
  | snoc op hrun hstep ih =>
    have h := ih fun op hop => hops op (List.mem_append_left _ hop)
    obtain ⟨n, rfl⟩ := hops op (List.mem_append_right _ (List.mem_singleton_self op))
    exact h.request hfit hroom hstep.2 hstep.1

/-- The first `free` of a list of calls. -/
theorem exists_first_free (h : ¬ ∀ op ∈ ops, ∃ n, op = HeapOp.malloc n) :
    ∃ pre p post, ops = pre ++ .free p :: post ∧ ∀ op ∈ pre, ∃ n, op = HeapOp.malloc n := by
  induction ops with
  | nil => exact absurd (by simp) h
  | cons op ops ih =>
    cases op with
    | free p => exact ⟨[], p, ops, rfl, by simp⟩
    | malloc n =>
      obtain ⟨pre, p, post, rfl, hpre⟩ := ih fun hall => h (List.forall_mem_cons.mpr ⟨⟨n, rfl⟩, hall⟩)
      exact ⟨.malloc n :: pre, p, post, rfl, List.forall_mem_cons.mpr ⟨⟨n, rfl⟩, hpre⟩⟩

/-- Heap accounting, for runs whose requests are not placed with a wrapping guard, in an arena with room for
    one more header in the address space. It holds in every state of the run exactly when the run frees
    nothing; and giving back what a request was given never restores the counter. -/
theorem heap_accounting_iff (hfit : start.toNat + size.toNat ≤ 2 ^ 32)
    (hroom : size.toNat + 20 ≤ 2 ^ 32)
    (hrun : Run (fun c op c' => c.Step op c' ∧ RequestFits c op) (.new mem start size) ops c) :
    ((∀ pre c', pre <+: ops →
        Run (fun c op c' => c.Step op c' ∧ RequestFits c op) (.new mem start size) pre c' →
        HeapAccounted c') ↔
      ∀ op ∈ ops, ∃ n, op = .malloc n) ∧
    ∀ n p c1 c2, NoWrap c.heap n → c.Step (.malloc n) c1 → c1.live = (p, n) :: c.live →
      c1.Step (.free p) c2 → c2.heap.usage ≠ c.heap.usage := by
  constructor
  · constructor
    · intro hall
      by_contra hfree
      obtain ⟨pre, p, post, rfl, hpre⟩ := exists_first_free hfree
      rw [List.append_cons, Run.append_iff] at hrun
      obtain ⟨c2, hrun2, -⟩ := hrun
      obtain ⟨c1, hrun1, hstep, -⟩ := Run.snoc_iff.mp hrun2
      have hinv := AccountInv.run hfit hroom hrun1 hpre
      have hinit : pre ++ [.free p] <+: pre ++ .free p :: post := ⟨post, (List.append_cons ..).symm⟩
      exact hinv.free_not_accounted hroom hstep (hall _ c2 hinit hrun2)
    · intro hops pre c' hpre hrun'
      have hinv := AccountInv.run hfit hroom hrun' fun op hop => hops op (hpre.subset hop)
      exact hinv.accounted hfit
  · intro n p c1 c2 hwrap hmalloc hlive hfree heq
    obtain ⟨hused, -⟩ := free_step hfree
    rcases malloc_step hmalloc with hsame | hmore
    · exact List.cons_ne_self _ _ (hlive.symm.trans hsame)
    · have hzero : n + 20 = 0 := by
        rw [usage, usage, hused, hmore] at heq
        exact BitVec.add_right_eq_self.mp heq
      have h20 : (20 : U32).toNat = 20 := rfl
      have hsum := congrArg BitVec.toNat hzero
      rw [NoWrap] at hwrap
      rw [BitVec.toNat_add_of_lt (by omega), h20] at hsum
      exact absurd hsum (Nat.succ_ne_zero _)

end Runs

/-! ## The kernel's heap -/

/-- One allocation and its release on the kernel's heap. -/
theorem kernel_malloc_free : ∃ c1 c2, kernelClient.Step (.malloc 40) c1 ∧
    c1.live = [(0xC0400014, 40)] ∧ c1.Step (.free 0xC0400014) c2 ∧ c2.live = [] ∧ c2.heap.usage = 60 ∧
    c2.heap.first = 0xC0400000 ∧ allocated c2.heap.mem c2.heap.first = false ∧
    next c2.heap.mem c2.heap.first = nullptr := by
  have hany : (kernelClient.step (.malloc 40)).any (fun c1 => decide (c1.live = [(0xC0400014, 40)]) &&
      (c1.step (.free 0xC0400014)).any fun c2 => decide (c2.live = [] ∧ c2.heap.usage = 60 ∧
        c2.heap.first = 0xC0400000 ∧ allocated c2.heap.mem c2.heap.first = false ∧
        next c2.heap.mem c2.heap.first = nullptr)) := by
    decide +kernel
  obtain ⟨c1, h1, hlive⟩ := (Option.any_eq_true _ _).mp hany
  obtain ⟨hlive, hfree⟩ := Bool.and_eq_true_iff.mp hlive
  obtain ⟨c2, h2, hprop⟩ := (Option.any_eq_true _ _).mp hfree
  exact ⟨c1, c2, h1, of_decide_eq_true hlive, h2, of_decide_eq_true hprop⟩

theorem heap_accounting_kernel : ∃ c1 c2, kernelClient.Step (.malloc 40) c1 ∧ HeapAccounted c1 ∧
    c1.Step (.free 0xC0400014) c2 ∧ c2.heap.usage ≠ kernelClient.heap.usage := by
  obtain ⟨c1, c2, h1, hlive, h2, -⟩ := kernel_malloc_free
  have hwrap : NoWrap kernelClient.heap 40 := by
    unfold NoWrap
    decide +kernel
  have hrun : Run (fun c op c' => c.Step op c' ∧ RequestFits c op) kernelClient [.malloc 40] c1 :=
    Run.snoc (HeapOp.malloc 40) .nil ⟨h1, Or.inl hwrap⟩
  refine ⟨c1, c2, h1, ?_, h2, ?_⟩
  · refine (heap_accounting_iff kernel_heap_fits (by decide) hrun).1.mpr ?_ _ c1 (List.prefix_refl _) hrun
    intro op hop
    exact ⟨40, List.mem_singleton.mp hop⟩
  · exact (heap_accounting_iff kernel_heap_fits (by decide) .nil).2 40 _ c1 c2 hwrap h1 hlive h2

/-- After the release nothing is allocated, but 60 bytes are counted as used. -/
theorem usage_after_free : ∃ c, Run HeapClient.Step kernelClient [.malloc 40, .free 0xC0400014] c ∧
    c.live = [] ∧ c.heap.usage = 60 ∧ ¬ HeapAccounted c := by
  obtain ⟨c1, c2, h1, -, h2, hlive, hused, hfirst, hfree, hnext⟩ := kernel_malloc_free
  have hrun := Run.snoc _ (Run.snoc _ .nil h1) h2
  refine ⟨c2, hrun, hlive, hused, fun hacc => ?_⟩
  obtain ⟨cs, hwalk, hsum⟩ := hacc.usage
  have hfree' : ¬ allocated c2.heap.mem c2.heap.first = true := by rw [hfree]; exact Bool.false_ne_true
  rcases cs with _ | ⟨c, _ | ⟨d, cs⟩⟩
  · have hnull : c2.heap.first = nullptr := hwalk
    rw [hfirst] at hnull
    exact absurd hnull (by decide)
  · obtain ⟨-, rfl, -⟩ := hwalk
    rw [allocatedBytes, List.filter_cons_of_neg hfree', hused] at hsum
    cases hsum
  · obtain ⟨-, rfl, hne, -⟩ := hwalk
    exact hne hnext

end Pros
