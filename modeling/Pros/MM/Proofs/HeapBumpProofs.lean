import Pros.MM.HeapAccount
import Pros.MM.Proofs.HeapSafetyProofs

/-!
# The heap without `free` is a bump allocator

As long as nothing is freed, the chunk list consists of allocated blocks followed by one free chunk, and
the heap behaves like a counter. The header of that free chunk may stick out of the arena, and its size
may be below zero, taken modulo `2 ^ 32`; by then the guard rejects every request.
-/

namespace Pros

open MemoryChunk Heap

/-- The invariant of an allocation-only run: the blocks `bs` handed out, and one free chunk behind them
    whose size is right unless its header reaches over the end of the arena. -/
structure BumpInv (start arena : ℕ) (c : HeapClient) (bs : List Block) : Prop where
  first_eq : c.heap.first = ptr start
  memorySize_eq : c.heap.memorySize.toNat = arena
  used_eq : c.heap.usedMemory.toNat = extent bs
  lt_arena : extent bs < arena
  linked : Linked c.heap.mem nullptr start bs (ptr (start + extent bs))
  trailing : ∃ k, Header c.heap.mem (start + extent bs) (lastOf nullptr start bs) nullptr ⟨k, false⟩ ∧
    (extent bs + 20 + k = arena ∨ arena < extent bs + 20)
  full : ∀ b ∈ bs, b.allocated = true
  backed : ∀ x ∈ c.live, Backed start bs x
  distinct : c.live.Pairwise fun x y => x.1 ≠ y.1
  footprint_eq : footprint c.live = extent bs

section Bump

variable {start arena : ℕ} {c c' : HeapClient} {bs : List Block} {n : U32}

/-- The guard, computed without wrapping. -/
theorem outOfMemory_iff (h : BumpInv start arena c bs) (hn : NoWrap c.heap n) :
    c.heap.outOfMemory n = true ↔ arena ≤ extent bs + n.toNat + 20 := by
  have h20 : (20 : U32).toNat = 20 := rfl
  rw [NoWrap, h.used_eq] at hn
  rw [outOfMemory, decide_eq_true_eq, ge_iff_le, BitVec.le_def, h.memorySize_eq,
    BitVec.toNat_add_of_lt, BitVec.toNat_add_of_lt, h20, h.used_eq]
  · rw [h.used_eq]; omega
  · rw [BitVec.toNat_add_of_lt (by rw [h.used_eq]; omega), h20, h.used_eq]; omega

/-- `malloc` in an allocation-only run: a comparison with the counter decides. -/
theorem BumpInv.malloc_eq (h : BumpInv start arena c bs) (hpos : 0 < start)
    (hfit : start + arena ≤ 2 ^ 32) (hn : NoWrap c.heap n) :
    c.heap.malloc n = if extent bs + n.toNat + 20 < arena then
        some (ptr (start + extent bs + 20), c.heap.split (ptr (start + extent bs)) n)
      else some (nullptr, c.heap) := by
  have hlt := h.lt_arena
  split_ifs with hroom
  · have hguard : c.heap.outOfMemory n = false := by
      rw [← Bool.not_eq_true, outOfMemory_iff h hn]; omega
    obtain ⟨k, htrail, hk⟩ := h.trailing
    have hlen := mul_length_le_extent bs
    have hne : ptr (start + extent bs) ≠ nullptr := ptr_ne_nullptr (by omega) (by omega)
    have hfuel : addresses = (addresses - bs.length - 1 + 1) + bs.length := by
      rw [addresses]; omega
    have hfirst : c.heap.first = linkTo start bs (ptr (start + extent bs)) := by
      rw [h.first_eq]
      cases bs <;> simp
    have hsearch : search c.heap.mem n addresses c.heap.first = some (ptr (start + extent bs)) := by
      rw [hfuel, hfirst, search_skip h.linked hpos (by omega), search, if_neg hne, if_pos]
      · exact htrail.fits_iff.mpr ⟨by simp only; omega, rfl⟩
      · exact fun b hb hf => absurd (h.full b hb) (by simp [hf.2])
    simp only [malloc, hguard, hsearch, hne, Bool.false_eq_true, if_false]
    rw [ptr_add_ofNat]
  · have hguard : c.heap.outOfMemory n = true := by
      rw [outOfMemory_iff h hn]; omega
    simp only [malloc, hguard, if_true]

theorem BumpInv.freshLog (h : BumpInv start arena c bs) :
    BumpInv start arena ⟨c.freshLog, c.live⟩ bs := by
  obtain ⟨k, hk, hs⟩ := h.trailing
  exact ⟨h.first_eq, h.memorySize_eq, h.used_eq, h.lt_arena, h.linked.congr fun _ _ _ => rfl,
    ⟨k, hk.congr fun _ _ _ => rfl, hs⟩, h.full, h.backed, h.distinct, h.footprint_eq⟩

/-- The headers of a row of blocks end with that of the last one. -/
theorem InHeaders.concat {b : Block} {w : U32} (hw : InHeaders start (bs ++ [b]) w) :
    ∃ x, start ≤ x ∧ x < start + extent bs + 20 ∧ w = ptr x := by
  rcases inHeaders_append.mp hw with ⟨y, hy, k, hk, rfl⟩ | hw
  · have hy' := position_bounds hy
    rw [sizeofMemoryChunk] at hk
    exact ⟨y.1 + k, by omega, by omega, rfl⟩
  · rcases inHeaders_cons.mp hw with ⟨k, hk, rfl⟩ | hw
    · rw [sizeofMemoryChunk] at hk
      exact ⟨start + extent bs + k, by omega, by omega, rfl⟩
    · exact absurd hw (inHeaders_nil _ _)

/-- Only the headers matter, that of the free chunk among them. -/
theorem BumpInv.congr_headers {heap : Heap} {live : List (U32 × U32)} {m : Ram}
    (h : BumpInv start arena ⟨heap, live⟩ bs) (hm : ∀ w, InHeaders start bs w → m.byte w = heap.mem.byte w)
    (htrail : ∀ x, start + extent bs ≤ x → x < start + extent bs + 20 → m.byte (ptr x) = heap.mem.byte (ptr x)) :
    BumpInv start arena ⟨{ heap with mem := m }, live⟩ bs := by
  obtain ⟨k, hk, hs⟩ := h.trailing
  exact ⟨h.first_eq, h.memorySize_eq, h.used_eq, h.lt_arena, h.linked.congr_headers hm, ⟨k, hk.congr htrail, hs⟩,
    h.full, h.backed, h.distinct, h.footprint_eq⟩

/-- The free chunk has no successor whose link would have to be changed. -/
theorem BumpInv.split_mem (h : BumpInv start arena c bs) (hn : n.toNat + 41 ≤ 2 ^ 32) :
    (c.heap.split (ptr (start + extent bs)) n).mem =
      takeChunk (writeTemp c.heap.mem (ptr (start + extent bs)) n) (ptr (start + extent bs))
        (ptr (start + extent bs + 20 + n.toNat)) n := by
  obtain ⟨k, htrail, -⟩ := h.trailing
  have hnext : next (writeTemp c.heap.mem (ptr (start + extent bs)) n) (ptr (start + extent bs + 20 + n.toNat)) =
      nullptr := (writeTemp_fields hn).1.trans htrail.next_eq
  simp only [Heap.split, temp_eq, backLink_of_null hnext]

/-- A successful request moves the free chunk behind a new block. -/
theorem BumpInv.split (h : BumpInv start arena c bs) (hpos : 0 < start) (hfit : start + arena ≤ 2 ^ 32)
    (harena : arena + 20 ≤ 2 ^ 32) (hroom : extent bs + n.toNat + 20 < arena) :
    BumpInv start arena
      ⟨c.heap.split (ptr (start + extent bs)) n, (ptr (start + extent bs + 20), n) :: c.live⟩
      (bs ++ [⟨n.toNat, true⟩]) := by
  obtain ⟨k, htrail, hk⟩ := h.trailing
  have hn : n.toNat + 41 ≤ 2 ^ 32 := by omega
  have h20 : (20 : U32).toNat = 20 := rfl
  have hspan : extent (bs ++ [⟨n.toNat, true⟩]) = extent bs + 20 + n.toNat := by
    rw [extent_append, extent_cons, extent_nil, Block.span_mk]; omega
  have hmem := h.split_mem hn
  set t := start + extent bs with ht
  obtain ⟨hr', ht'⟩ := headers_split hn htrail fun _ _ _ => rfl
  have hpos' : start + extent (bs ++ [⟨n.toNat, true⟩]) = t + 20 + n.toNat := by omega
  refine
    { first_eq := h.first_eq
      memorySize_eq := h.memorySize_eq
      used_eq := ?_
      lt_arena := by omega
      linked := ?_
      trailing := ⟨(size c.heap.mem (ptr t) - 20 - n).toNat, ?_, ?_⟩
      full := ?_
      backed := ?_
      distinct := ?_
      footprint_eq := ?_ }
  · change (c.heap.usedMemory + (n + 20)).toNat = _
    rw [BitVec.toNat_add_of_lt, BitVec.toNat_add_of_lt, h20, h.used_eq, hspan]
    · omega
    · rw [h20]; omega
    · rw [BitVec.toNat_add_of_lt (by rw [h20]; omega), h20, h.used_eq]; omega
  · rw [hpos', hmem, linked_append, linked_cons, linkTo_cons, linkTo_nil, ← ht]
    refine ⟨h.linked.congr fun x h1 h2 => ?_, hr', trivial⟩
    rw [byte_takeChunk (by omega) (by omega) (by omega),
      byte_writeTemp (by omega) (by omega) (by omega)]
  · rw [hpos', hmem, lastOf_append, lastOf_cons, lastOf_nil]
    exact ht'
  · rw [hspan]
    by_cases hsize : n.toNat + 20 ≤ k
    · rw [remainder_size (k := k) htrail.size_eq hsize]; omega
    · omega
  · intro b hb
    rcases List.mem_append.mp hb with hb | hb
    · exact h.full b hb
    · obtain rfl := List.mem_singleton.mp hb
      rfl
  · intro x hx
    rcases List.mem_cons.mp hx with rfl | hx
    · exact ⟨t, ⟨n.toNat, true⟩, Tiling.mem_positions_split bs [] _, rfl, rfl, by omega, le_rfl⟩
    · refine (h.backed x hx).of_positions fun a d had hd _ _ => ⟨d, ?_, hd, le_rfl⟩
      rw [Tiling.positions_append]
      exact List.mem_append_left _ had
  · refine List.Pairwise.cons (fun x hx heq => ?_) h.distinct
    obtain ⟨a, d, had, -, hxa, ha, -⟩ := h.backed x hx
    have hb := position_bounds had
    have hlt := h.lt_arena
    rw [hxa, ptr_inj (by omega) (by omega)] at heq
    omega
  · change n.toNat + 20 + footprint c.live = _
    rw [h.footprint_eq, hspan]
    omega

/-- The invariant is preserved by every request. -/
theorem BumpInv.step {op : HeapOp} (h : BumpInv start arena c bs) (hpos : 0 < start)
    (hfit : start + arena ≤ 2 ^ 32) (harena : arena + 20 ≤ 2 ^ 32) (hop : AllocOnly c op)
    (hstep : c.Step op c') : ∃ bs', BumpInv start arena c' bs' := by
  obtain ⟨n, rfl, hn⟩ := hop
  have hfresh := h.freshLog
  have heq := hfresh.malloc_eq hpos hfit hn
  have hlt := h.lt_arena
  split_ifs at heq with hroom
  · obtain rfl := HeapClient.step_of_malloc hstep heq
    rw [if_neg (ptr_ne_nullptr (by omega) (by omega))]
    exact ⟨_, hfresh.split hpos hfit harena hroom⟩
  · obtain rfl := HeapClient.step_of_malloc hstep heq
    exact ⟨bs, hfresh⟩

/-- The chunks on the list are the blocks handed out and the free chunk behind them. -/
theorem BumpInv.onList (h : BumpInv start arena c bs) {chunk : U32}
    (hc : OnList c.heap.mem c.heap.first chunk) :
    (∃ a b, (a, b) ∈ Tiling.positions Block.span start bs ∧ chunk = ptr a) ∨
      chunk = ptr (start + extent bs) := by
  obtain ⟨k, htrail, -⟩ := h.trailing
  rw [h.first_eq] at hc
  induction hc with
  | first _ =>
    rcases bs with _ | ⟨b, bs⟩
    · exact Or.inr rfl
    · exact Or.inl ⟨start, b, List.mem_cons_self, rfl⟩
  | next _ hn ih =>
    rcases ih with ⟨a, b, hab, rfl⟩ | rfl
    · rcases next_of_position h.linked hab with he | ⟨b', hb', he⟩
      · exact Or.inr he
      · exact Or.inl ⟨_, b', hb', he⟩
    · exact absurd htrail.next_eq hn

/-- The payloads are disjoint, in the arena, and off every header, even where the last header wraps
    around the end of the address space. -/
theorem BumpInv.safe (h : BumpInv start arena c bs) (hpos : 0 < start)
    (hfit : start + arena ≤ 2 ^ 32) : Safe start (start + arena) c := by
  have hlt := h.lt_arena
  have hfits : start + extent bs ≤ 2 ^ 32 := by omega
  refine ⟨?_, fun x hx w hw => ?_, fun x hx chunk hchunk => ?_⟩
  · refine h.distinct.imp_of_mem ?_
    intro x y hx hy hne
    exact (h.backed _ hx).payload_disjoint (h.backed _ hy) hfits hne
  · have hin := (h.backed x hx).payload_inside hfits hw
    rw [Set.mem_Ico] at hin ⊢
    omega
  · rw [Set.disjoint_right]
    rintro w ⟨k, hk, rfl⟩
    rcases h.onList hchunk with ⟨a, b, hab, rfl⟩ | rfl
    · exact (h.backed x hx).notMem_of_inHeaders hfits ⟨_, hab, k, hk, ptr_add a k⟩
    · intro hw
      obtain ⟨a, b, hab, -, hxa, -, hn⟩ := h.backed x hx
      have hb := position_bounds hab
      have hin := payload_of_backed hxa hn (by omega) hw
      rw [sizeofMemoryChunk] at hk
      rw [ptr_add, toNat_ptr] at hin
      omega

end Bump

/-- The invariant holds initially. -/
theorem BumpInv.new {mem : Ram} {start size : U32} (hsize : 20 ≤ size.toNat)
    (hstart : start ≠ nullptr) (hfit : start.toNat + size.toNat ≤ 2 ^ 32) :
    BumpInv start.toNat size.toNat (HeapClient.new mem start size) [] := by
  have hr : Represents (HeapClient.new mem start size).heap start.toNat [⟨size.toNat - 20, false⟩] :=
    represents_init hsize hstart hfit
  refine ⟨hr.first_eq, ?_, ?_, by rw [extent_nil]; omega, trivial, ⟨_, hr.linked.1, ?_⟩, by simp,
    by simp [HeapClient.new], List.Pairwise.nil, rfl⟩
  · show (Heap.init mem start size).memorySize.toNat = _
    rw [Heap.init]
    split_ifs <;> rfl
  · show (Heap.init mem start size).usedMemory.toNat = _
    rw [Heap.init]
    split_ifs <;> rfl
  · rw [extent_nil]; omega

/-- Allocation-only runs in an arena at a non-null address, with room for one more header in the address
    space. The heap is a counter `U`, the footprint of the successful requests: `usage()` is `U`, a
    request for `n` bytes succeeds exactly when `U + n + 20` is below the arena's size and then returns
    the address `start + U + 20`, and the payloads are disjoint, in the arena and off every header. -/
theorem heap_bump {mem : Ram} {start size : U32} (hsize : 20 ≤ size.toNat)
    (hstart : start ≠ nullptr) (hfit : start.toNat + size.toNat ≤ 2 ^ 32)
    (hroom : size.toNat + 20 ≤ 2 ^ 32) {ops : List HeapOp} {c : HeapClient}
    (hrun : Run (fun c op c' => c.Step op c' ∧ AllocOnly c op) (HeapClient.new mem start size) ops c) :
    c.heap.usage.toNat = footprint c.live ∧
      Safe start.toNat (start.toNat + size.toNat) c ∧
      ∀ n, NoWrap c.heap n →
        (footprint c.live + n.toNat + 20 < size.toNat →
          start + BitVec.ofNat 32 (footprint c.live) + 20 ≠ nullptr ∧
          ∃ h', c.heap.malloc n = some (start + BitVec.ofNat 32 (footprint c.live) + 20, h')) ∧
        (¬ footprint c.live + n.toNat + 20 < size.toNat → c.heap.malloc n = some (nullptr, c.heap)) := by
  have hr : Represents (Heap.init mem start size) start.toNat [⟨size.toNat - 20, false⟩] :=
    represents_init hsize hstart hfit
  have hpos : 0 < start.toNat := hr.start_pos
  obtain ⟨bs, h⟩ : ∃ bs, BumpInv start.toNat size.toNat c bs := by
    refine hrun.invariant (I := fun c => ∃ bs, BumpInv _ _ c bs) ⟨_, .new hsize hstart hfit⟩ ?_
    rintro c op c' ⟨bs, h⟩ ⟨hstep, hop⟩
    exact h.step hpos hfit hroom hop hstep
  have hlt := h.lt_arena
  refine ⟨h.used_eq.trans h.footprint_eq.symm, h.safe hpos hfit, fun n hn => ?_⟩
  have heq := h.malloc_eq hpos hfit hn
  have haddr : start + BitVec.ofNat 32 (extent bs) + 20 = ptr (start.toNat + extent bs + 20) := by
    rw [← ptr_toNat start, ptr_add, ptr_add_ofNat, ptr_toNat]
  rw [h.footprint_eq, haddr]
  refine ⟨fun hlt => ⟨ptr_ne_nullptr (by omega) (by omega), ?_⟩, fun hge => ?_⟩
  · exact ⟨_, by rw [heq, if_pos hlt]⟩
  · rw [heq, if_neg hge]

theorem kernel_heap_bump : ∃ c, kernelClient.Step (.malloc 40) c ∧
    c.heap.usage.toNat = footprint c.live ∧ Safe 0xC0400000 0xC0500000 c := by
  obtain ⟨c, hc, -⟩ := kernel_first_request
  have hop : AllocOnly kernelClient (.malloc 40) := ⟨40, rfl, by unfold NoWrap; decide +kernel⟩
  obtain ⟨h1, h2, -⟩ := heap_bump kernel_heap_size kernel_heap_start kernel_heap_fits (by decide)
    (.snoc _ .nil ⟨hc, hop⟩)
  exact ⟨c, hc, h1, h2⟩

/-- The two arenas that `heap_bump` leaves out. At address 0 the first chunk is the null pointer and
    nothing can be allocated. In an arena of `2 ^ 32 - 1` bytes the header behind the last block wraps
    into the first header, and the list goes on into the payload. -/
theorem bump_fails_at_null_and_top :
    ((HeapClient.new { byte := fun _ => 0 } 0 100).heap.malloc 1).map (·.1) = some nullptr ∧
    ∃ c, (HeapClient.new { byte := fun _ => 0 } 1 (2 ^ 32 - 1)).Step (.malloc (2 ^ 32 - 22)) c ∧
      ¬ Safe 1 (2 ^ 32) c := by
  refine ⟨by decide +kernel, ?_⟩
  have hany : ((HeapClient.new { byte := fun _ => 0 } 1 (2 ^ 32 - 1)).step
      (.malloc (2 ^ 32 - 22))).any (fun c => decide (c.live = [(21, 2 ^ 32 - 22)] ∧
        c.heap.first = 1 ∧ next c.heap.mem 1 = 0xFFFFFFFF ∧
        next c.heap.mem 0xFFFFFFFF = 0xFFFF0000)) := by
    decide +kernel
  obtain ⟨c, hc, hprop⟩ := (Option.any_eq_true _ _).mp hany
  obtain ⟨hlive, h1, h2, h3⟩ := of_decide_eq_true hprop
  refine ⟨c, hc, fun h => ?_⟩
  have hlist : OnList c.heap.mem c.heap.first 0xFFFF0000 := by
    rw [h1, ← h3, ← h2]
    refine .next (.next (.first (by decide)) ?_) ?_
    · rw [h2]; decide
    · rw [h2, h3]; decide
  have hmem : (0xFFFF0000 : U32) ∈ payload (21, 2 ^ 32 - 22) := ⟨0xFFFF0000 - 21, by decide, by decide⟩
  have hdisj := Set.disjoint_left.mp (h.headers (21, 2 ^ 32 - 22) (by rw [hlive]; simp) _ hlist)
  exact hdisj hmem ⟨0, by decide, by decide⟩

end Pros
