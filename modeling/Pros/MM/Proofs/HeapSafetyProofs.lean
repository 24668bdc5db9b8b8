import Pros.MM.Kmalloc
import Pros.MM.Proofs.HeapClientProofs

/-!
# Heap client safety and list well-formedness

Calls that stay away from the two defects preserve the invariant of the client's run, so every state
that such calls reach is safe and has a well-formed chunk list. One call is enough to leave the arena,
and a handful break the list, on the kernel's own heap.
-/

namespace Pros

open MemoryChunk Heap

section Step

variable {start stop : ℕ} {c c' : HeapClient} {bs : List Block}

/-- The log of stores does not matter to where a request is placed. -/
theorem placedIn_freshLog {n d : U32} : PlacedIn c.freshLog n d ↔ PlacedIn c.heap n d := by
  have hlog : ∀ {m m' : Ram} {e : U32}, m'.byte = m.byte → FirstFit m n e d → FirstFit m' n e d := by
    intro m m' e hm hfit
    have hsize : ∀ e, size m' e = size m e := fun e => Memory.load32_congr fun _ _ => by rw [hm]
    have hnext : ∀ e, next m' e = next m e := fun e => Memory.load32_congr fun _ _ => by rw [hm]
    have hall : ∀ e, allocated m' e = allocated m e := fun e => by simp only [allocated, hm]
    induction hfit with
    | here h1 h2 h3 => exact .here h1 (by rwa [hsize]) (by rwa [hall])
    | later h1 h2 _ ih => exact .later h1 (by rwa [hsize, hall]) (by rwa [hnext])
  exact and_congr_right fun _ => ⟨hlog rfl, hlog rfl⟩

/-- What a call of `malloc` does to the invariant, and what it stores to. -/
theorem ClientInv.malloc (h : ClientInv start stop c bs) {n : U32}
    (hok : MallocKeepsLinks c.heap n) (hstep : c.Step (.malloc n) c') :
    ∃ bs', ClientInv start stop c' bs' ∧
      ∀ w ∈ c'.heap.mem.written, InHeaders start bs' w ∨
        ∃ pre b post, bs = pre ++ b :: post ∧ PlacedIn c.heap n (ptr (start + extent pre)) ∧
          bs' = pre ++ (cut n.toNat b ++ post) ∧ w = ptr (start + extent pre + 40 + n.toNat) := by
  have hr : Represents c.freshLog start bs := h.represents.clearLog
  have hok' : MallocKeepsLinks c.freshLog n := fun d hd => hok d (placedIn_freshLog.mp hd)
  rcases malloc_cases hr n with ⟨hm, -⟩ | ⟨pre, b, post, rfl, -, hfit, hplaced, hm⟩
  · obtain rfl := HeapClient.step_of_malloc hstep hm
    exact ⟨bs, ⟨hr, h.stop_eq, h.backed, h.distinct⟩, fun w hw => absurd hw List.not_mem_nil⟩
  · obtain ⟨hroom, hr'⟩ := represents_split hr hplaced hok'
    have hpos := hr.start_pos
    have hfits := hr.fits
    have hspan := Block.span_eq b
    have hcut : extent (pre ++ (cut n.toNat b ++ post)) = extent (pre ++ b :: post) := by
      simp only [cut, extent_append, extent_cons, extent_nil, Block.span_mk, sizeofMemoryChunk, hspan]
      omega
    rw [extent_append, extent_cons] at hfits
    have hlt : start + extent pre + 20 < 2 ^ 32 := by omega
    obtain rfl := HeapClient.step_of_malloc hstep hm
    rw [if_neg (ptr_ne_nullptr (by omega) hlt)]
    have hnew : Backed start (pre ++ (cut n.toNat b ++ post)) (ptr (start + extent pre + 20), n) :=
      ⟨_, _, Tiling.mem_positions_split pre _ ⟨n.toNat, true⟩, rfl, rfl, hlt, le_rfl⟩
    refine ⟨_, ⟨hr', hcut ▸ h.stop_eq, ?_, ?_⟩, fun w hw => ?_⟩
    · intro x hx
      rcases List.mem_cons.mp hx with rfl | hx
      · exact hnew
      · exact (h.backed x hx).split hfit hroom
    · refine List.Pairwise.cons (fun x hx heq => ?_) h.distinct
      -- a live pointer belongs to an allocated block, the new one was free
      obtain ⟨a, d, had, hd, hxa, ha, -⟩ := h.backed x hx
      rw [hxa, ptr_inj (by omega) (by omega)] at heq
      obtain rfl : start + extent pre = a := by omega
      rcases Tiling.eq_or_apart had (Tiling.mem_positions_split pre post b) with he | he | he
      · obtain ⟨-, rfl⟩ := Prod.mk.injEq .. |>.mp he
        exact absurd hd (by simp [hfit.2])
      · have := d.le_span
        change start + extent pre + d.span ≤ start + extent pre at he
        omega
      · have := b.le_span
        change start + extent pre + b.span ≤ start + extent pre at he
        omega
    · have hh := (linked_cons.mp (linked_append.mp hr.linked).2).1
      rcases written_splitMem hh hpos hr.fits hroom hw with hw | hw | hw
      · exact absurd hw List.not_mem_nil
      · exact Or.inl hw
      · exact Or.inr ⟨pre, b, post, rfl, placedIn_freshLog.mp hplaced, rfl, hw⟩

/-- What a call of `free` does to the invariant, and what it stores to. -/
theorem ClientInv.free (h : ClientInv start stop c bs) {p : U32}
    (hok : FreeKeepsLinks c.heap p) (hstep : c.Step (.free p) c') :
    ∃ bs', ClientInv start stop c' bs' ∧ (∀ x ∈ c'.live, x ∈ c.live) ∧
      ∀ w ∈ c'.heap.mem.written, InHeaders start bs w := by
  have hr : Represents c.freshLog start bs := h.represents.clearLog
  obtain ⟨x, hmem, hxp, rfl⟩ := HeapClient.step_free hstep
  obtain ⟨a, b, hab, hb, hxa, ha, -⟩ := h.backed x hmem
  obtain ⟨pre, post, rfl, rfl⟩ := Tiling.exists_split_of_mem_positions hab
  have hp : p = ptr (start + extent pre + 20) := hxp.symm.trans hxa
  subst hp
  obtain ⟨res, hrel, hr', hw⟩ := represents_free hr hok
  have hperm := List.perm_cons_erase hmem
  have hdistinct := (hperm.pairwise_iff fun h => Ne.symm h).mp h.distinct
  rw [List.pairwise_cons] at hdistinct
  have hsub : ∀ y ∈ c.live.erase x, y ∈ c.live := fun y hy => List.mem_of_mem_erase hy
  refine ⟨res, ⟨hr', by rw [hrel.extent_eq]; exact h.stop_eq, fun y hy => ?_, hdistinct.2⟩, hsub,
    fun w hmw => (hw w hmw).resolve_left List.not_mem_nil⟩
  refine (h.backed y (hsub y hy)).released hrel ?_
  rw [← hxp]
  exact (hdistinct.1 y hy).symm

/-- The invariant holds initially. -/
theorem ClientInv.new {mem : Ram} {start size : U32} (hsize : 20 ≤ size.toNat)
    (hstart : start ≠ nullptr) (hfit : start.toNat + size.toNat ≤ 2 ^ 32) :
    ClientInv start.toNat (start.toNat + size.toNat) (HeapClient.new mem start size)
      [⟨size.toNat - 20, false⟩] where
  represents := represents_init hsize hstart hfit
  stop_eq := by rw [extent_cons, extent_nil, Block.span_mk]; omega
  backed := by simp [HeapClient.new]
  distinct := List.Pairwise.nil

/-- Calls that keep the links keep the invariant. -/
theorem ClientInv.step {op : HeapOp} (h : ClientInv start stop c bs) (hok : OpKeepsLinks c op)
    (hstep : c.Step op c') : ∃ bs', ClientInv start stop c' bs' := by
  cases op with
  | malloc n =>
    obtain ⟨bs', h', -⟩ := h.malloc hok hstep
    exact ⟨bs', h'⟩
  | free p =>
    obtain ⟨bs', h', -, -⟩ := h.free hok hstep
    exact ⟨bs', h'⟩

theorem OpSafe.keepsLinks {op : HeapOp} (h : OpSafe c op) : OpKeepsLinks c op := by
  cases op with
  | malloc n =>
    intro chunk hchunk
    rcases h chunk hchunk with h | ⟨h1, -, h2⟩
    · exact Or.inl h
    · exact Or.inr ⟨h1, Or.inr h2⟩
  | free p => exact h

/-- A safe call stores inside the arena and outside the live payloads. -/
theorem ClientInv.storesSafe {op : HeapOp} (h : ClientInv start stop c bs) (hok : OpSafe c op)
    (hstep : c.Step op c') : StoresSafe start stop c c' := by
  cases op with
  | free p =>
    obtain ⟨bs', -, hsub, hw⟩ := h.free hok.keepsLinks hstep
    intro w hmw
    refine ⟨h.stop_eq ▸ (hw w hmw).inside h.represents.fits, fun x hx => ?_⟩
    have hx' : x ∈ c.live := (List.mem_append.mp hx).elim id (hsub x)
    exact (h.backed x hx').notMem_of_inHeaders h.represents.fits (hw w hmw)
  | malloc n =>
    obtain ⟨bs', h', hw⟩ := h.malloc hok.keepsLinks hstep
    have hlive : ∀ x ∈ c.live ++ c'.live, x ∈ c'.live := by
      intro x hx
      rcases List.mem_append.mp hx with hold | hnew
      · obtain ⟨p, heap, -, rfl⟩ := HeapClient.step_malloc hstep
        simp only
        split_ifs
        · exact hold
        · exact List.mem_cons_of_mem _ hold
      · exact hnew
    have hheader : ∀ w, InHeaders start bs' w → w.toNat ∈ Set.Ico start stop ∧
        ∀ x ∈ c.live ++ c'.live, w ∉ payload x := fun w hw =>
      ⟨h'.stop_eq ▸ hw.inside h'.represents.fits, fun x hx =>
        (h'.backed x (hlive x hx)).notMem_of_inHeaders h'.represents.fits hw⟩
    intro w hmw
    rcases hw w hmw with hw | ⟨pre, b, post, rfl, hplaced, rfl, rfl⟩
    · exact hheader w hw
    · -- the byte after the new header: in the free remainder, or in the next header
      have hh := (linked_cons.mp (linked_append.mp h.represents.linked).2).1
      have hcond := hok _ hplaced
      rw [hh.size_eq, hh.next_eq] at hcond
      have hfits := h.represents.fits
      rw [extent_append, extent_cons, Block.span_eq] at hfits
      have hpos := h.represents.start_pos
      rcases hcond with hlt | ⟨heq, hne, -⟩
      · have hlt' : start + extent pre + 40 + n.toNat < 2 ^ 32 := by omega
        have hst := h.stop_eq
        rw [extent_append, extent_cons, Block.span_eq] at hst
        refine ⟨?_, fun x hx => ?_⟩
        · rw [toNat_ptr_of_lt hlt', Set.mem_Ico]
          omega
        · have hrem := mem_positions_cut start n.toNat pre post b
          refine (h'.backed x (hlive x hx)).notMem_of_free h'.represents.fits hrem rfl ?_ ?_ hlt'
          · omega
          · rw [Block.span_mk]
            omega
      · cases post with
        | nil => exact absurd rfl hne
        | cons d rest =>
          refine hheader _ ?_
          rw [← List.append_assoc]
          refine inHeaders_of_mem ?_ ?_ <;>
            simp only [cut, extent_append, extent_cons, extent_nil, Block.span_mk,
              sizeofMemoryChunk] <;> omega

end Step

/-! ## Arenas in which nothing can be allocated -/

/-- The heap of an arena at address 0 or too small for a header. -/
structure EmptyInv (c : HeapClient) : Prop where
  first_eq : c.heap.first = nullptr
  used_eq : c.heap.usedMemory = 0
  live_eq : c.live = []

section Empty

variable {c c' : HeapClient} {n p : U32}

theorem EmptyInv.new {mem : Ram} {start size : U32} (h : size.toNat < sizeofMemoryChunk ∨ start = nullptr) :
    EmptyInv (HeapClient.new mem start size) := by
  refine ⟨?_, ?_, rfl⟩
  · have hfirst : (Heap.init mem start size).first = if size.toNat < sizeofMemoryChunk then nullptr else start := by
      unfold Heap.init
      split_ifs <;> rfl
    refine hfirst.trans ?_
    rcases h with h | h
    · exact if_pos h
    · rw [h, ite_self]
  · show (Heap.init mem start size).usedMemory = 0
    unfold Heap.init
    split_ifs <;> rfl

theorem EmptyInv.malloc_eq (h : EmptyInv c) (n : U32) : c.freshLog.malloc n = some (nullptr, c.freshLog) := by
  have hsearch : search c.freshLog.mem n addresses c.freshLog.first = some nullptr := by
    rw [show c.freshLog.first = nullptr from h.first_eq]
    rfl
  unfold Heap.malloc
  rw [hsearch]
  simp only [if_true, ite_self]

theorem EmptyInv.request (h : EmptyInv c) (hstep : c.Step (.malloc n) c') :
    EmptyInv c' ∧ c'.heap.mem.written = [] := by
  obtain rfl := HeapClient.step_of_malloc hstep (h.malloc_eq n)
  exact ⟨⟨h.first_eq, h.used_eq, h.live_eq⟩, rfl⟩

theorem EmptyInv.no_free (h : EmptyInv c) : ¬ c.Step (.free p) c' := by
  intro hstep
  obtain ⟨x, hx, -⟩ := HeapClient.step_free hstep
  rw [h.live_eq] at hx
  cases hx

theorem EmptyInv.step {op : HeapOp} (h : EmptyInv c) (hstep : c.Step op c') :
    EmptyInv c' ∧ c'.heap.mem.written = [] := by
  cases op with
  | malloc n => exact h.request hstep
  | free p => exact absurd hstep h.no_free

theorem EmptyInv.safe {start stop : ℕ} (h : EmptyInv c) : Safe start stop c := by
  have hnone : ∀ x ∈ c.live, False := by
    rw [h.live_eq]
    exact fun x => List.not_mem_nil
  refine ⟨?_, fun x hx => (hnone x hx).elim, fun x hx => (hnone x hx).elim⟩
  rw [h.live_eq]
  exact List.Pairwise.nil

end Empty

/-! ## Runs -/

/-- Calls that keep the links keep the invariant along a run. -/
theorem ClientInv.run {mem : Ram} {start size : U32} {ok : HeapClient → HeapOp → Prop}
    (hok : ∀ c op, ok c op → OpKeepsLinks c op) (hsize : 20 ≤ size.toNat) (hstart : start ≠ nullptr)
    (hfit : start.toNat + size.toNat ≤ 2 ^ 32) {ops : List HeapOp} {c : HeapClient}
    (hrun : Run (fun c op c' => c.Step op c' ∧ ok c op) (HeapClient.new mem start size) ops c) :
    ∃ bs, ClientInv start.toNat (start.toNat + size.toNat) c bs := by
  refine hrun.invariant (I := fun c => ∃ bs, ClientInv _ _ c bs) ⟨_, .new hsize hstart hfit⟩ ?_
  rintro c op c' ⟨bs, h⟩ ⟨hstep, hc⟩
  exact h.step (hok c op hc) hstep

/-- Every state reached by calls that stay away from the defects is safe, and so is every such call made in it. -/
theorem heap_client_safe {mem : Ram} {start size : U32} (hfit : start.toNat + size.toNat ≤ 2 ^ 32)
    {ops : List HeapOp} {c : HeapClient}
    (hrun : Run (fun c op c' => c.Step op c' ∧ OpSafe c op) (HeapClient.new mem start size) ops c) :
    Safe start.toNat (start.toNat + size.toNat) c ∧
      ∀ op c', c.Step op c' → OpSafe c op →
        StoresSafe start.toNat (start.toNat + size.toNat) c c' := by
  by_cases hempty : size.toNat < sizeofMemoryChunk ∨ start = nullptr
  · have h : EmptyInv c := hrun.invariant (.new hempty) fun _ _ _ h hstep => (h.step hstep.1).1
    refine ⟨h.safe, fun op c' hstep _ w hw => ?_⟩
    rw [(h.step hstep).2] at hw
    exact absurd hw List.not_mem_nil
  · obtain ⟨hsize, hstart⟩ := not_or.mp hempty
    obtain ⟨bs, h⟩ := ClientInv.run (fun _ _ => OpSafe.keepsLinks) (Nat.not_lt.mp hsize) hstart hfit hrun
    exact ⟨h.safe, fun op c' hstep hok => h.storesSafe hok hstep⟩

/-- In an arena that does not start at the null address, every state reached by calls that stay away
    from the defects has a well-formed chunk list. -/
theorem heap_list_wellFormed {mem : Ram} {start size : U32} (hsize : 20 ≤ size.toNat)
    (hstart : start ≠ nullptr) (hfit : start.toNat + size.toNat ≤ 2 ^ 32) {ops : List HeapOp}
    {c : HeapClient}
    (hrun : Run (fun c op c' => c.Step op c' ∧ OpKeepsLinks c op) (HeapClient.new mem start size) ops
      c) : WellFormed start.toNat (start.toNat + size.toNat) c.heap := by
  obtain ⟨bs, h⟩ := ClientInv.run (fun _ _ => id) hsize hstart hfit hrun
  exact h.wellFormed

/-! ## The kernel's heap -/

/-- The kernel's heap, constructed over zeroed memory. -/
def kernelClient : HeapClient := .new { byte := fun _ => 0 } KERNEL_HEAP_START KERNEL_HEAP_SIZE

theorem kernel_heap_size : 20 ≤ KERNEL_HEAP_SIZE.toNat := by decide

theorem kernel_heap_start : KERNEL_HEAP_START ≠ nullptr := by decide

theorem kernel_heap_fits : KERNEL_HEAP_START.toNat + KERNEL_HEAP_SIZE.toNat ≤ 2 ^ 32 := by decide

/-- A request that the first chunk has ample room for is safe. -/
theorem opSafe_of_first_fits {c : HeapClient} {n : U32} (hfree : allocated c.heap.mem c.heap.first = false)
    (hroom : n.toNat + 20 < (size c.heap.mem c.heap.first).toNat) : OpSafe c (.malloc n) := by
  rintro d ⟨-, hfit⟩
  cases hfit with
  | here _ _ _ => exact Or.inl hroom
  | later _ hn _ => exact absurd ⟨by rw [BitVec.lt_def]; omega, hfree⟩ hn

/-- The first request on the kernel's heap. -/
theorem kernel_first_request : ∃ c, kernelClient.Step (.malloc 40) c ∧ OpSafe kernelClient (.malloc 40) := by
  have hsome : (kernelClient.step (.malloc 40)).isSome := by decide +kernel
  obtain ⟨c, hc⟩ := Option.isSome_iff_exists.mp hsome
  exact ⟨c, hc, opSafe_of_first_fits (by decide +kernel) (by decide +kernel)⟩

theorem kernel_malloc_safe : ∃ c, kernelClient.Step (.malloc 40) c ∧
    Safe 0xC0400000 0xC0500000 c := by
  obtain ⟨c, hc, hok⟩ := kernel_first_request
  exact ⟨c, hc, (heap_client_safe kernel_heap_fits (.snoc _ .nil ⟨hc, hok⟩)).1⟩

/-- On the kernel's heap, `malloc(0x100000 - 21)` succeeds and stores past the end of the arena. -/
theorem kernel_malloc_stores_outside : ∃ c, kernelClient.Step (.malloc (0x100000 - 21)) c ∧
    c.live = [(0xC0400014, 0x100000 - 21)] ∧ ¬ StoresSafe 0xC0400000 0xC0500000 kernelClient c := by
  have hany : (kernelClient.step (.malloc (0x100000 - 21))).any (fun c =>
      decide (c.live = [(0xC0400014, 0x100000 - 21)] ∧ 0xC0500000 ∈ c.heap.mem.written)) := by
    decide +kernel
  obtain ⟨c, hc, hprop⟩ := (Option.any_eq_true _ _).mp hany
  obtain ⟨hlive, hw⟩ := of_decide_eq_true hprop
  refine ⟨c, hc, hlive, fun h => ?_⟩
  have hin := (h _ hw).1
  rw [Set.mem_Ico] at hin
  exact absurd hin.2 (by decide)

/-- Along a walk, the chunk that a link leads to is linked back. -/
theorem Walk.backLink {m : Ram} {first p d : U32} {cs : List U32} (hwalk : Walk m first cs)
    (hback : BackLinks m p cs) (hd : d ∈ cs) :
    next m d = nullptr ∨ next m d ∈ cs ∧ prev m (next m d) = d := by
  induction cs generalizing first p with
  | nil => exact absurd hd List.not_mem_nil
  | cons c cs ih =>
    obtain ⟨-, rfl, hcs⟩ := hwalk
    rcases List.mem_cons.mp hd with rfl | hd
    · cases cs with
      | nil => exact Or.inl hcs
      | cons e cs =>
        obtain ⟨-, he, -⟩ := hcs
        rw [he]
        exact Or.inr ⟨List.mem_cons_of_mem _ List.mem_cons_self, hback.2.1⟩
    · exact (ih hcs hback.2 hd).imp_right fun ⟨h1, h2⟩ => ⟨List.mem_cons_of_mem _ h1, h2⟩

/-- The chunks on the list are the ones that the walk visits. -/
theorem Walk.mem_of_onList {m : Ram} {first p d : U32} {cs : List U32} (hwalk : Walk m first cs)
    (hback : BackLinks m p cs) (hon : OnList m first d) : d ∈ cs := by
  induction hon with
  | first h1 =>
    cases cs with
    | nil => exact absurd hwalk h1
    | cons c cs => exact hwalk.2.1 ▸ List.mem_cons_self
  | next _ hn ih => exact ((hwalk.backLink hback ih).resolve_left hn).1

/-- In a well-formed list every link is linked back. -/
theorem WellFormed.prev_next {start stop : ℕ} {h : Heap} {chunk : U32} (hw : WellFormed start stop h)
    (hon : OnList h.mem h.first chunk) (hn : next h.mem chunk ≠ nullptr) :
    prev h.mem (next h.mem chunk) = chunk := by
  obtain ⟨cs, hwalk, -, hback, -⟩ := hw
  exact ((hwalk.backLink hback (hwalk.mem_of_onList hback hon)).resolve_left hn).2

/-- A run on the kernel's heap after which the back link of the second chunk is wrong: the first chunk
    is freed while a free chunk with a successor follows it. -/
theorem kernel_free_breaks_list : ∃ c,
    Run HeapClient.Step kernelClient
      [.malloc 40, .malloc 8, .free 0xC0400014, .malloc 8, .free 0xC0400014] c ∧
    ¬ WellFormed 0xC0400000 0xC0500000 c.heap := by
  have hany : ([HeapOp.malloc 40, .malloc 8, .free 0xC0400014, .malloc 8, .free 0xC0400014].foldlM
      HeapClient.step kernelClient).any (fun c =>
      decide (c.heap.first ≠ nullptr ∧ next c.heap.mem c.heap.first ≠ nullptr ∧
        prev c.heap.mem (next c.heap.mem c.heap.first) ≠ c.heap.first)) := by
    decide +kernel
  obtain ⟨c, hc, hprop⟩ := (Option.any_eq_true _ _).mp hany
  obtain ⟨h1, h2, h3⟩ := of_decide_eq_true hprop
  exact ⟨c, Run.of_foldlM hc, fun hw => h3 (hw.prev_next (.first h1) h2)⟩

theorem kernel_malloc_wellFormed : ∃ c, kernelClient.Step (.malloc 40) c ∧
    WellFormed 0xC0400000 0xC0500000 c.heap := by
  obtain ⟨c, hc, hok⟩ := kernel_first_request
  exact ⟨c, hc, heap_list_wellFormed kernel_heap_size kernel_heap_start kernel_heap_fits
    (.snoc _ .nil ⟨hc, hok.keepsLinks⟩)⟩

end Pros
