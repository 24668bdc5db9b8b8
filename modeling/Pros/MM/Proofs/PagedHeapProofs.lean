import Pros.MM.Proofs.VirtualMemoryProofs

/-!
# Proofs: the kernel heap on physical memory

The invariant says that what the kernel sees of its heap is a heap of linked blocks, and that only bytes behind the
heap's pages differ from what `initVMM` left. A call of the heap is a list of stores to the heap, which go through
the page tables one by one.
-/

namespace Pros

open MemoryManager PageEntry MemoryChunk Heap Memory

/-! ## The stores of a call -/

section Stores

variable {m m' : Ram} {chunk result size : U32}

theorem storesTo_memset (h : m.StoresTo m') (dest : U32) (val : U8) (count : ℕ) :
    m.StoresTo (memset m' dest val count) := by
  induction count generalizing m' with
  | zero => exact h
  | succ count ih => exact ih (h.store8 _ _)

theorem storesTo_backLink (h : m.StoresTo m') (chunk p : U32) : m.StoresTo (backLink m' chunk p) := by
  rw [backLink]
  split_ifs
  · exact h.store32 _ _
  · exact h

theorem storesTo_split (h : Heap) (result size : U32) : h.mem.StoresTo (h.split result size).mem := by
  have htemp : h.mem.StoresTo (writeTemp h.mem result size) :=
    (((((storesTo_memset (.refl _) _ _ _).store32 _ _).store32 _ _).store8 _ _).store32 _ _).store32 _ _
  exact (((storesTo_backLink htemp _ _).store32 _ _).store8 _ _).store32 _ _

theorem storesTo_free (h : Heap) (p : U32) : h.mem.StoresTo (h.free p).mem := by
  have hprev : h.mem.StoresTo (mergePrev (setAllocated h.mem (p - 20) false) (p - 20)).1 := by
    rw [mergePrev]
    split_ifs
    · exact storesTo_backLink ((((StoresTo.refl _).store8 _ _).store32 _ _).store32 _ _) _ _
    · exact (StoresTo.refl _).store8 _ _
  have hnext : ∀ {m' : Ram} (chunk : U32), h.mem.StoresTo m' → h.mem.StoresTo (mergeNext m' chunk) := by
    intro m' chunk hm
    rw [mergeNext]
    split_ifs
    · exact storesTo_backLink ((hm.store32 _ _).store32 _ _) _ _
    · exact hm
  exact hnext _ hprev

theorem storesTo_init (mem : Ram) (start size : U32) : mem.StoresTo (Heap.init mem start size).mem := by
  rw [Heap.init]
  split_ifs
  · exact .refl _
  · exact (((((StoresTo.refl _).store8 _ _).store32 _ _).store32 _ _).store32 _ _).store32 _ _

theorem storesTo_step {c c' : HeapClient} {op : HeapOp} (hstep : c.Step op c') :
    c.heap.mem.clearLog.StoresTo c'.heap.mem := by
  cases op with
  | free p =>
    obtain ⟨x, -, -, rfl⟩ := HeapClient.step_free hstep
    exact storesTo_free c.freshLog p
  | malloc n =>
    obtain ⟨p, heap, hm, rfl⟩ := HeapClient.step_malloc hstep
    rw [malloc] at hm
    split_ifs at hm with hguard
    · obtain ⟨-, rfl⟩ := Prod.mk.inj (Option.some.inj hm)
      exact .refl _
    · cases hsearch : search c.freshLog.mem n addresses c.freshLog.first with
      | none => rw [hsearch] at hm; cases hm
      | some result =>
        rw [hsearch] at hm
        dsimp only at hm
        split_ifs at hm
        · obtain ⟨-, rfl⟩ := Prod.mk.inj (Option.some.inj hm)
          exact .refl _
        · obtain ⟨-, rfl⟩ := Prod.mk.inj (Option.some.inj hm)
          exact storesTo_split _ _ _

theorem written_init {mem : Ram} {start size w : U32} (hsize : 20 ≤ size.toNat)
    (hfit : start.toNat + size.toNat ≤ 2 ^ 32) (hw : w ∈ (Heap.init mem start size).mem.written) :
    w ∈ mem.written ∨ w ∈ heapArena start size := by
  rw [Heap.init, if_neg (by rw [sizeofMemoryChunk]; omega), ← ptr_toNat start] at hw
  simp only [setAllocated_ptr, setPrev_ptr, setNext_ptr, setSize_ptr, setMagic_ptr, mem_written_store32_ptr,
    Memory.written_store8, List.mem_cons] at hw
  have harena : ∀ x, start.toNat ≤ x → x < start.toNat + 20 → ptr x ∈ heapArena start size := by
    intro x h1 h2
    show start.toNat ≤ (ptr x).toNat ∧ (ptr x).toNat < start.toNat + size.toNat
    rw [toNat_ptr_of_lt (by omega)]
    omega
  rcases hw with ⟨x, h1, h2, rfl⟩ | ⟨x, h1, h2, rfl⟩ | ⟨x, h1, h2, rfl⟩ | ⟨x, h1, h2, rfl⟩ | rfl | hw
  · exact Or.inr (harena x (by omega) (by omega))
  · exact Or.inr (harena x (by omega) (by omega))
  · exact Or.inr (harena x (by omega) (by omega))
  · exact Or.inr (harena x (by omega) (by omega))
  · exact Or.inr (harena _ (by omega) (by omega))
  · exact Or.inl hw

end Stores

/-! ## Headers and data -/

theorem ClientInv.congr {start stop : ℕ} {c c' : HeapClient} {bs : List Block} (h : ClientInv start stop c bs)
    (hfirst : c'.heap.first = c.heap.first) (hlive : c'.live = c.live)
    (hmem : ∀ w, InHeaders start bs w → c'.heap.mem.byte w = c.heap.mem.byte w) :
    ClientInv start stop c' bs where
  represents := ⟨hfirst.trans h.represents.first_eq, h.represents.linked.congr_headers hmem, h.represents.nonempty,
    h.represents.start_pos, h.represents.fits⟩
  stop_eq := h.stop_eq
  backed := hlive ▸ h.backed
  distinct := hlive ▸ h.distinct

/-! ## The invariant -/

/-- The heap's addresses. -/
def kernelArena : Set U32 := heapArena KERNEL_HEAP_START KERNEL_HEAP_SIZE

structure PagedInv (mm : MemoryManager) (s : PagedHeap) (bs : List Block) : Prop where
  client : ClientInv KERNEL_HEAP_START.toNat (KERNEL_HEAP_START.toNat + KERNEL_HEAP_SIZE.toNat) s.seen bs
  mm_eq : s.mm = { mm with ram := s.mm.ram }
  outside : ∀ x ∉ Paging.places mm.translation mm.ram kernelArena, s.mm.ram.byte x = mm.ram.byte x

section Invariant

variable {mm : MemoryManager} {s s' : PagedHeap} {bs : List Block}

theorem PagedInv.own (h : PagedInv mm s bs) (hown : Paging.Own mm.translation mm.ram kernelArena) :
    Paging.Own s.mm.translation s.mm.ram kernelArena ∧ s.mm.translate = mm.translate := by
  have hagree := hown.of_agree h.outside
  have htranslation : s.mm.translation = mm.translation := by
    rw [h.mm_eq]
    rfl
  exact ⟨htranslation ▸ hagree.1, (congrFun htranslation s.mm.ram).trans hagree.2⟩

/-- In the heap's addresses, the kernel sees what is behind them. -/
theorem shows_seen (hown : Paging.Own mm.translation mm.ram kernelArena) :
    Paging.Shows mm.translation mm.ram kernelArena mm.seen := by
  intro a ha
  obtain ⟨x, hx⟩ := hown.mapped a ha
  have hload : Paging.load mm.translation mm.ram a = some (mm.ram.byte x) := by
    rw [Paging.load, hx]
    rfl
  have hseen : mm.seen.byte a = mm.ram.byte x := congrArg (Option.getD · 0) hload
  rw [hload, hseen]

/-- Stores to the heap go through the page tables without a fault, and what the kernel sees of the heap is what
    they make of flat memory. -/
theorem storeAll_spec (hown : Paging.Own mm.translation mm.ram kernelArena) {stores : List (U32 × U8)}
    (hstores : ∀ x ∈ stores, x.1 ∈ kernelArena) :
    ∃ ram, mm.storeAll stores = some { mm with ram := ram } ∧
      (∀ x ∉ Paging.places mm.translation mm.ram kernelArena, ram.byte x = mm.ram.byte x) ∧
      ∀ a ∈ kernelArena, ({ mm with ram := ram } : MemoryManager).seen.byte a = (mm.seen.storeAll stores).byte a := by
  obtain ⟨ram, hram, hoff, hshows⟩ := hown.storeAll (shows_seen hown) hstores
  refine ⟨ram, by rw [MemoryManager.storeAll, hram]; rfl, hoff, fun a ha => ?_⟩
  have hload := hshows a ha
  exact congrArg (Option.getD · 0) hload

theorem stores_mem {c : HeapClient} {stores : List (U32 × U8)} (hc : c.heap.mem = mm.seen.storeAll stores)
    (hw : ∀ w ∈ c.heap.mem.written, w ∈ kernelArena) : ∀ x ∈ stores, x.1 ∈ kernelArena := by
  intro x hx
  refine hw _ ?_
  rw [hc, written_storeAll, List.mem_append, List.mem_reverse]
  exact Or.inl (List.mem_map_of_mem hx)

theorem exists_stored (hown : Paging.Own mm.translation mm.ram kernelArena) {c : HeapClient}
    (hc : mm.seen.StoresTo c.heap.mem) (hw : ∀ w ∈ c.heap.mem.written, w ∈ kernelArena) :
    ∃ s', PagedHeap.Stored mm c s' := by
  obtain ⟨stores, hstores⟩ := hc
  obtain ⟨ram, hram, -⟩ := storeAll_spec hown (stores_mem hstores hw)
  exact ⟨_, stores, hstores, by rw [hram]; rfl⟩

theorem stored_spec (hown : Paging.Own mm.translation mm.ram kernelArena) {c : HeapClient}
    (hc : PagedHeap.Stored mm c s') (hw : ∀ w ∈ c.heap.mem.written, w ∈ kernelArena) :
    ∃ ram, s' = PagedHeap.of c { mm with ram := ram } ∧
      (∀ x ∉ Paging.places mm.translation mm.ram kernelArena, ram.byte x = mm.ram.byte x) ∧
      ∀ a ∈ kernelArena, s'.mm.seen.byte a = c.heap.mem.byte a := by
  obtain ⟨stores, hstores, hs'⟩ := hc
  obtain ⟨ram, hram, hoff, hseen⟩ := storeAll_spec hown (stores_mem hstores hw)
  rw [hram, Option.map_some, Option.some.injEq] at hs'
  subst hs'
  exact ⟨ram, rfl, hoff, fun a ha => (hseen a ha).trans (by rw [hstores])⟩

/-- The heap's bytes after its stores, as the start of the next call. -/
theorem PagedInv.stored (h : PagedInv mm s bs) (hown : Paging.Own mm.translation mm.ram kernelArena) {c : HeapClient}
    {bs' : List Block} (hc : PagedHeap.Stored s.mm c s') (hw : ∀ w ∈ c.heap.mem.written, w ∈ kernelArena)
    (hclient : ClientInv KERNEL_HEAP_START.toNat (KERNEL_HEAP_START.toNat + KERNEL_HEAP_SIZE.toNat) c bs') :
    PagedInv mm s' bs' ∧ ∀ a ∈ kernelArena, s'.mm.seen.byte a = c.heap.mem.byte a := by
  obtain ⟨hown', htranslate⟩ := h.own hown
  obtain ⟨ram, rfl, hoff, hseen⟩ := stored_spec hown' hc hw
  have hplaces : Paging.places s.mm.translation s.mm.ram kernelArena =
      Paging.places mm.translation mm.ram kernelArena := by
    have htranslation : s.mm.translation s.mm.ram = mm.translation mm.ram := htranslate
    rw [Paging.places, Paging.places, htranslation]
  rw [hplaces] at hoff
  refine ⟨⟨hclient.congr rfl rfl fun w hw => hseen w ?_, ?_, fun x hx => (hoff x hx).trans (h.outside x hx)⟩, hseen⟩
  · have hinside := hw.inside hclient.represents.fits
    rw [hclient.stop_eq] at hinside
    exact hinside
  · show ({ s.mm with ram := ram } : MemoryManager) = { mm with ram := ram }
    rw [h.mm_eq]

theorem PagedInv.new (hown : Paging.Own mm.translation mm.ram kernelArena) :
    (∃ s, PagedHeap.New mm s) ∧
      ∀ s, PagedHeap.New mm s → PagedInv mm s [⟨KERNEL_HEAP_SIZE.toNat - 20, false⟩] := by
  have hw : ∀ w ∈ (HeapClient.new mm.seen KERNEL_HEAP_START KERNEL_HEAP_SIZE).heap.mem.written, w ∈ kernelArena :=
    fun w hmw => (written_init kernel_heap_size kernel_heap_fits hmw).resolve_left List.not_mem_nil
  have hclient : ClientInv KERNEL_HEAP_START.toNat (KERNEL_HEAP_START.toNat + KERNEL_HEAP_SIZE.toNat)
      (HeapClient.new mm.seen KERNEL_HEAP_START KERNEL_HEAP_SIZE) [⟨KERNEL_HEAP_SIZE.toNat - 20, false⟩] :=
    ClientInv.new kernel_heap_size kernel_heap_start kernel_heap_fits
  refine ⟨exists_stored hown (storesTo_init _ _ _) hw, fun s hs => ?_⟩
  obtain ⟨ram, rfl, hoff, hseen⟩ := stored_spec hown hs hw
  refine ⟨hclient.congr rfl rfl fun w hw => hseen w ?_, rfl, hoff⟩
  have hinside := hw.inside hclient.represents.fits
  rw [hclient.stop_eq] at hinside
  exact hinside

/-- The payloads that are handed out are in the heap, and apart from its headers. -/
theorem PagedInv.payload (h : PagedInv mm s bs) {x : U32 × U32} (hx : x ∈ s.live) {w : U32} (hw : w ∈ payload x) :
    w ∈ kernelArena ∧ ¬ InHeaders KERNEL_HEAP_START.toNat bs w :=
  ⟨h.client.safe.inside x hx w hw,
    fun hin => (h.client.backed x hx).notMem_of_inHeaders h.client.represents.fits hin hw⟩

/-- An action keeps the invariant and the data of the users. -/
theorem PagedInv.step (h : PagedInv mm s bs) (hown : Paging.Own mm.translation mm.ram kernelArena) {a : HeapAction}
    (hallowed : s.Allowed a) (hstep : s.Step a s') : (∃ bs', PagedInv mm s' bs') ∧ DataKept s a s' := by
  cases a with
  | call op =>
    obtain ⟨c, hc, hstored⟩ := hstep
    have hsafe := h.client.storesSafe hallowed.1 hc
    obtain ⟨bs', hclient⟩ := h.client.step hallowed.1.keepsLinks hc
    have hw : ∀ w ∈ c.heap.mem.written, w ∈ kernelArena := fun w hmw => (hsafe w hmw).1
    obtain ⟨hinv, hseen⟩ := h.stored hown hstored hw hclient
    refine ⟨⟨bs', hinv⟩, fun x hx hx' w hmw => ?_⟩
    obtain ⟨harena, -⟩ := h.payload hx hmw
    -- The call does not store to blocks that are handed out.
    have hnot : w ∉ c.heap.mem.written := fun hmem =>
      (hsafe w hmem).2 x (List.mem_append_left _ hx) hmw
    obtain ⟨stores, hstores⟩ := storesTo_step hc
    have hlog : w ∉ stores.map Prod.fst := by
      rw [hstores, written_storeAll] at hnot
      exact fun hmem => hnot (List.mem_append_left _ (List.mem_reverse.mpr hmem))
    exact (hseen w harena).trans ((congrArg (Memory.byte · w) hstores).trans (byte_storeAll_of_notMem hlog))
  | put b v =>
    obtain ⟨hown', -⟩ := h.own hown
    obtain ⟨x, hx, hb⟩ := hallowed
    obtain ⟨hbarena, hbheaders⟩ := h.payload hx hb
    have hc : PagedHeap.Stored s.mm ⟨{ s.seen.heap with mem := s.mm.seen.store8 b v }, s.live⟩ s' :=
      ⟨[(b, v)], rfl, hstep⟩
    have hclient : ClientInv KERNEL_HEAP_START.toNat (KERNEL_HEAP_START.toNat + KERNEL_HEAP_SIZE.toNat)
        ⟨{ s.seen.heap with mem := s.mm.seen.store8 b v }, s.live⟩ bs := by
      refine h.client.congr rfl rfl fun w hw => byte_store8_of_ne ?_
      rintro rfl
      exact hbheaders hw
    have hw : ∀ w ∈ (s.mm.seen.store8 b v).written, w ∈ kernelArena := by
      intro w hmw
      rw [written_store8, List.mem_cons] at hmw
      rcases hmw with rfl | hmw
      · exact hbarena
      · exact absurd hmw List.not_mem_nil
    obtain ⟨hinv, hseen⟩ := h.stored hown hc hw hclient
    refine ⟨⟨bs, hinv⟩, fun y hy _ w hmw => ?_⟩
    exact (hseen w (h.payload hy hmw).1).trans (byte_store8 ..)

/-- `malloc` comes back, and `free` does for a block that is handed out. -/
theorem ClientInv.exists_step {start stop : ℕ} {c : HeapClient} {bs : List Block} (h : ClientInv start stop c bs)
    {op : HeapOp} (hop : ∀ p, op = .free p → ∃ x ∈ c.live, x.1 = p) : ∃ c', c.Step op c' := by
  cases op with
  | malloc n =>
    have hmalloc : ∃ x, c.freshLog.malloc n = some x := by
      rcases malloc_cases h.represents.clearLog n with ⟨heq, -⟩ | ⟨pre, b, post, -, -, -, -, heq⟩
      · exact ⟨_, heq⟩
      · exact ⟨_, heq⟩
    obtain ⟨x, hx⟩ := hmalloc
    exact ⟨_, congrArg (Option.map _) hx⟩
  | free p =>
    obtain ⟨x, hx, hxp⟩ := hop p rfl
    have hfind : (c.live.find? fun x => x.1 = p).isSome := List.find?_isSome.mpr ⟨x, hx, by simpa using hxp⟩
    obtain ⟨y, hy⟩ := Option.isSome_iff_exists.mp hfind
    exact ⟨_, congrArg (Option.map _) hy⟩

/-- An action causes no fault. -/
theorem PagedInv.exists_step (h : PagedInv mm s bs) (hown : Paging.Own mm.translation mm.ram kernelArena)
    {a : HeapAction} (hallowed : s.Allowed a) : ∃ s', s.Step a s' := by
  obtain ⟨hown', -⟩ := h.own hown
  cases a with
  | call op =>
    obtain ⟨c, hc⟩ := h.client.exists_step hallowed.2
    have hsafe := h.client.storesSafe hallowed.1 hc
    obtain ⟨s', hs'⟩ := exists_stored hown' (storesTo_step hc) fun w hmw => (hsafe w hmw).1
    exact ⟨s', c, hc, hs'⟩
  | put b v =>
    obtain ⟨x, hx, hb⟩ := hallowed
    have hstores : ∀ y ∈ [(b, v)], y.1 ∈ kernelArena := by
      intro y hy
      obtain rfl := List.mem_singleton.mp hy
      exact (h.payload hx hb).1
    obtain ⟨ram, hram, -⟩ := storeAll_spec hown' hstores
    exact ⟨_, congrArg (Option.map _) hram⟩

theorem PagedInv.isolated (h : PagedInv mm s bs) (hown : Paging.Own mm.translation mm.ram kernelArena) :
    HeapIsolated mm s where
  safe := h.client.safe
  wellFormed := h.client.wellFormed
  walk virt := walk_of_translate (congrFun (h.own hown).2 virt)
  outside x hx := by
    refine h.outside x fun hmem => ?_
    obtain ⟨k, hk, hwalk⟩ := mem_places_iff.mp hmem
    exact hx k (heapPages_eq ▸ hk) hwalk

end Invariant

/-- After booting, the kernel heap works behind the page tables: no call and no store of its users faults, blocks
    keep their data, and no store reaches the page tables or other memory. -/
theorem heap_behind_page_tables {pmm : PMM} {entries : List MmapEntry} {ram : Ram} {dir : U32} {m₀ : MemoryManager}
    (hboot : Booted pmm entries ram dir m₀) :
    (∃ s, PagedHeap.New m₀ s) ∧
      ∀ s₀ as s, PagedHeap.New m₀ s₀ → Run (fun s a s' => s.Step a s' ∧ s.Allowed a) s₀ as s →
        HeapIsolated m₀ s ∧
          ∀ a, s.Allowed a → (∃ s', s.Step a s') ∧ ∀ s', s.Step a s' → DataKept s a s' := by
  obtain ⟨d, p, hmapped, -⟩ := hboot.heapMapped
  have hown := hmapped.own
  refine ⟨(PagedInv.new hown).1, fun s₀ as s hnew hrun => ?_⟩
  obtain ⟨bs, hinv⟩ : ∃ bs, PagedInv m₀ s bs := by
    refine hrun.invariant (I := fun s => ∃ bs, PagedInv m₀ s bs) ⟨_, (PagedInv.new hown).2 s₀ hnew⟩ ?_
    rintro s a s' ⟨bs, h⟩ ⟨hstep, hallowed⟩
    exact (h.step hown hallowed hstep).1
  exact ⟨hinv.isolated hown, fun a hallowed =>
    ⟨hinv.exists_step hown hallowed, fun s' hstep => (hinv.step hown hallowed hstep).2⟩⟩

theorem PagedHeap.New.fields {mm : MemoryManager} {s : PagedHeap} (h : PagedHeap.New mm s) :
    s.memorySize = KERNEL_HEAP_SIZE ∧ s.usedMemory = 0 ∧ s.live = [] := by
  obtain ⟨stores, -, hmap⟩ := h
  obtain ⟨mm', -, rfl⟩ := Option.map_eq_some_iff.mp hmap
  exact ⟨rfl, rfl, rfl⟩

/-- The first block of 40 bytes. -/
theorem live_first {mm : MemoryManager} {s s' : PagedHeap} (hs : PagedHeap.New mm s)
    (hinv : PagedInv mm s [⟨KERNEL_HEAP_SIZE.toNat - 20, false⟩]) (hstep : s.Step (.call (.malloc 40)) s') :
    s'.live = [(0xC0400014, 40)] := by
  obtain ⟨hsize, hused, hlive⟩ := hs.fields
  obtain ⟨c, hc, stores, -, hmap⟩ := hstep
  obtain ⟨mm', -, rfl⟩ := Option.map_eq_some_iff.mp hmap
  show c.live = _
  rcases malloc_cases hinv.client.represents.clearLog 40 with ⟨-, hguard | hnone⟩ | ⟨pre, b, post, hsplit, -, -, -, hm⟩
  · have hfull : (s.usedMemory + 40 + 20 ≥ s.memorySize : Bool) = true := hguard
    rw [hused, hsize] at hfull
    exact absurd hfull (by decide)
  · exact absurd ⟨by decide, rfl⟩ (hnone _ (List.mem_singleton_self _))
  · obtain rfl : pre = [] := by
      have hlen := congrArg List.length hsplit
      rw [List.length_append, List.length_cons, List.length_cons, List.length_nil] at hlen
      exact List.length_eq_zero_iff.mp (by omega)
    obtain rfl := HeapClient.step_of_malloc hc hm
    have hseen : s.seen.live = [] := hlive
    simp only [hseen]
    rfl

/-- A block of 40 bytes, behind the page tables of a small machine, and a byte in it. -/
theorem heap_behind_page_tables_smallPc : ∃ m₀ s s' s'',
    Booted ⟨MB 16, 0, 0, { byte := fun _ => 0 }⟩ smallPc { byte := fun _ => 0 } 0 m₀ ∧ PagedHeap.New m₀ s ∧
      s.Step (.call (.malloc 40)) s' ∧ s'.live = [(0xC0400014, 40)] ∧ s'.Step (.put 0xC0400014 7) s'' ∧
      HeapIsolated m₀ s'' := by
  obtain ⟨m₀, hboot, -⟩ := booted_smallPc { byte := fun _ => 0 } { byte := fun _ => 0 } 0
  obtain ⟨⟨s, hs⟩, hruns⟩ := heap_behind_page_tables hboot
  obtain ⟨d, p, hmapped, -⟩ := hboot.heapMapped
  have hfirst := ((PagedInv.new hmapped.own).2 s hs).client.represents
  have hheader := (linked_cons.mp hfirst.linked).1
  have hallowed : s.Allowed (.call (.malloc 40)) := by
    refine ⟨opSafe_of_first_fits ?_ ?_, fun p hp => nomatch hp⟩
    · rw [hfirst.first_eq, hheader.allocated_eq]
    · rw [hfirst.first_eq, hheader.size_eq]
      decide
  obtain ⟨s', hstep⟩ := ((hruns s [] s hs .nil).2 _ hallowed).1
  have hrun : Run (fun s a s' => s.Step a s' ∧ s.Allowed a) s [.call (.malloc 40)] s' :=
    .snoc _ .nil ⟨hstep, hallowed⟩
  have hlive := live_first hs ((PagedInv.new hmapped.own).2 s hs) hstep
  have hput : s'.Allowed (.put 0xC0400014 7) :=
    ⟨(0xC0400014, 40), hlive ▸ List.mem_singleton_self _, 0, by decide, rfl⟩
  obtain ⟨s'', hstep'⟩ := ((hruns s _ s' hs hrun).2 _ hput).1
  exact ⟨m₀, s, s', s'', hboot, hs, hstep, hlive, hstep', (hruns s _ s'' hs (hrun.snoc _ ⟨hstep', hput⟩)).1⟩

end Pros
