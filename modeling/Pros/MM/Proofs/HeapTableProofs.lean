import Pros.MM.Proofs.OnlyMappedProofs
import Pros.MM.Proofs.VirtualMemoryProofs

/-!
# Proofs: page tables at the kernel heap's place

The window ends where the kernel heap begins. A page table in one of the frames from 0x400 on is cleared and edited
in the frames of the heap instead, and what was in its own frame before is what the processor finds there
(`HeapMapped.mapPage_stale`).
-/

namespace Pros

open MemoryManager PageEntry

/-! ## Stores that stay in some places -/

section Confined

variable {τ : Ram → U32 → Option U32} {A P : Set U32} {B : Ram → Prop} {s s' s'' : MemoryManager} {a : U32}

/-- The addresses of `A` lead to the places of `P`, and keep doing so: `B` does not depend on these. -/
structure Confined (τ : Ram → U32 → Option U32) (A P : Set U32) (B : Ram → Prop) : Prop where
  leads : ∀ ram, B ram → ∀ a ∈ A, ∃ x ∈ P, τ ram a = some x
  keeps : ∀ ram, B ram → ∀ x ∈ P, ∀ v, B (ram.store8 x v)

/-- Nothing but memory has changed, and of that nothing that `B` depends on. -/
def StoredIn (B : Ram → Prop) (s s' : MemoryManager) : Prop :=
  s' = { s with ram := s'.ram, stored := s'.stored } ∧ B s'.ram

theorem StoredIn.refl (h : B s.ram) : StoredIn B s s := ⟨rfl, h⟩

theorem StoredIn.trans (h : StoredIn B s s') (h' : StoredIn B s' s'') : StoredIn B s s'' := by
  refine ⟨?_, h'.2⟩
  rw [h'.1, h.1]

theorem Confined.storeAll (h : Confined τ A P B) {ram : Ram} (hram : B ram) {stores : List (U32 × U8)}
    (hP : ∀ x ∈ stores, x.1 ∈ P) : B (ram.storeAll stores) := by
  induction stores generalizing ram with
  | nil => exact hram
  | cons x stores ih =>
    rw [List.forall_mem_cons] at hP
    exact ih (h.keeps ram hram x.1 hP.1 x.2) hP.2

/-- The places of some addresses. -/
theorem Confined.places (h : Confined τ A P B) {ram : Ram} (hram : B ram) {bytes : List (U32 × U8)}
    (hA : ∀ b ∈ bytes, b.1 ∈ A) :
    ∃ places, bytes.mapM (fun b => τ ram b.1) = some places ∧ ∀ x ∈ places, x ∈ P := by
  induction bytes with
  | nil => exact ⟨[], rfl, fun x hx => nomatch hx⟩
  | cons b bytes ih =>
    rw [List.forall_mem_cons] at hA
    obtain ⟨x, hx, hb⟩ := h.leads ram hram b.1 hA.1
    obtain ⟨places, hplaces, hall⟩ := ih hA.2
    refine ⟨x :: places, ?_, List.forall_mem_cons.mpr ⟨hx, hall⟩⟩
    rw [List.mapM_cons, hb, hplaces]
    rfl

theorem Confined.access (h : Confined τ A P B) (bytes : List (U32 × U8)) (hs : B s.ram)
    (hA : ∀ b ∈ bytes, b.1 ∈ A) : ∃ s', s.access τ bytes = some s' ∧ StoredIn B s s' := by
  obtain ⟨places, hplaces, hall⟩ := h.places hs hA
  rw [MemoryManager.access, hplaces]
  refine ⟨_, rfl, rfl, h.storeAll hs fun x hx => ?_⟩
  exact hall _ (List.of_mem_zip hx).1

/-- The bytes of a word. -/
def WordIn (A : Set U32) (a : U32) : Prop := ∀ i : ℕ, i < 4 → a + (i : U32) ∈ A

theorem Confined.assign (h : Confined τ A P B) (hs : B s.ram) (ha : WordIn A a) (set : U32 → U32) :
    ∃ s', s.assign τ a set = some s' ∧ StoredIn B s s' := by
  have hload : ∀ i : ℕ, i < 4 → ∃ b, Paging.load τ s.ram (a + (i : U32)) = some b := by
    intro i hi
    obtain ⟨x, -, hx⟩ := h.leads s.ram hs _ (ha i hi)
    exact ⟨_, congrArg (Option.map _) hx⟩
  obtain ⟨b₀, h₀⟩ := hload 0 (by omega)
  obtain ⟨b₁, h₁⟩ := hload 1 (by omega)
  obtain ⟨b₂, h₂⟩ := hload 2 (by omega)
  obtain ⟨b₃, h₃⟩ := hload 3 (by omega)
  rw [MemoryManager.assign, MemoryManager.load32, h₀, h₁, h₂, h₃]
  refine h.access _ hs fun b hb => ?_
  simp only [List.mem_cons, List.not_mem_nil, or_false] at hb
  rcases hb with rfl | rfl | rfl | rfl
  · exact ha 0 (by omega)
  · exact ha 1 (by omega)
  · exact ha 2 (by omega)
  · exact ha 3 (by omega)

theorem Confined.setEntry (h : Confined τ A P B) (hs : B s.ram) (ha : WordIn A a) (frame : U32) :
    ∃ s', s.setEntry τ a frame = some s' ∧ StoredIn B s s' := by
  obtain ⟨s₁, h₁, hs₁⟩ := h.assign hs ha setPresent
  obtain ⟨s₂, h₂, hs₂⟩ := h.assign hs₁.2 ha setWrite
  obtain ⟨s₃, h₃, hs₃⟩ := h.assign hs₂.2 ha fun w => setFrame w frame
  refine ⟨s₃, ?_, (hs₁.trans hs₂).trans hs₃⟩
  rw [MemoryManager.setEntry, h₁, Option.bind_eq_bind, Option.bind_some, h₂, Option.bind_some, h₃]

theorem Confined.memset (h : Confined τ A P B) (hs : B s.ram) {v : U8} {n : ℕ}
    (ha : ∀ i < n, a + ((i + 1 : ℕ) : U32) ∈ A) : ∃ s', s.memset τ a v n = some s' ∧ StoredIn B s s' := by
  induction n generalizing s with
  | zero => exact ⟨s, rfl, .refl hs⟩
  | succ n ih =>
    obtain ⟨s₁, h₁, hs₁⟩ := h.access [(a + ((n + 1 : ℕ) : U32), v)] hs fun b hb => by
      rw [List.mem_singleton.mp hb]
      exact ha n (by omega)
    obtain ⟨s₂, h₂, hs₂⟩ := ih hs₁.2 fun i hi => ha i (by omega)
    refine ⟨s₂, ?_, hs₁.trans hs₂⟩
    rw [MemoryManager.memset, MemoryManager.store8, h₁, Option.bind_eq_bind, Option.bind_some, h₂]

end Confined

/-! ## What is behind the heap -/

section Aside

variable {m : MemoryManager} {d i p t : ℕ} {w : U32} {ram : Ram} {a f v : U32}

/-- The frame of one of the heap's pages. -/
def HeapFrame (m : MemoryManager) (q : ℕ) : Prop := ∃ k < 256, m.walk (heapPage k) = some (BitVec.ofNat 32 q)

/-- Memory is as in `m`, apart from what is behind the heap, and with `w` in the directory's entry `i`. -/
def AsideFrom (m : MemoryManager) (d i : ℕ) (w : U32) (ram : Ram) : Prop :=
  ∀ l < 2 ^ 30, ¬ HeapFrame m (l / 1024) → word ram l = if l = 1024 * d + i then w else word m.ram l

theorem HeapMapped.private_of_heapFrame (h : HeapMapped m d 256 p) {q : ℕ} (hq : q < 2 ^ 20) (hf : HeapFrame m q) :
    Private m d q := by
  obtain ⟨k, hk, hwalk⟩ := hf
  obtain ⟨f, hf, hpriv⟩ := h.walk_heapPage hk
  have hlt := hpriv.lt
  have hnat := congrArg BitVec.toNat (Option.some.inj (hwalk.symm.trans hf))
  rw [BitVec.toNat_ofNat, BitVec.toNat_ofNat] at hnat
  obtain rfl : q = f := by omega
  exact hpriv

theorem asideFrom_self : AsideFrom m d i (dirEntry m d i) m.ram := by
  intro l hl _
  split_ifs with heq
  · rw [heq]
    rfl
  · rfl

/-- A translation that is there does not depend on what is behind the heap, or on an entry that is not present. -/
theorem HeapMapped.walk_aside (h : HeapMapped m d 256 p) (hi : i < 1024) (habs : present (dirEntry m d i) = false)
    (hram : AsideFrom m d i w ram) (hv : m.walk v = some f) :
    ({ m with ram := ram } : MemoryManager).walk v = some f := by
  have hk := dirIndex_lt v
  have hj := tableIndex_lt v
  have hdlt := h.paged.dir_settled.lt
  have hdge := h.paged.dir_settled.ge
  have hpresent := present_of_walk h.paged.dir_eq hv
  have hki : dirIndex v ≠ i := by
    rintro rfl
    rw [habs] at hpresent
    cases hpresent
  have hentry : dirEntry { m with ram := ram } d (dirIndex v) = dirEntry m d (dirIndex v) := by
    refine (hram (1024 * d + dirIndex v) (by omega) fun hf => ?_).trans (if_neg (by omega))
    exact (h.private_of_heapFrame (by omega) hf).ne_dir (by omega)
  have hflt := @tableFrame_lt m d (dirIndex v)
  have hframe : tableFrame { m with ram := ram } d (dirIndex v) = tableFrame m d (dirIndex v) := by
    rw [tableFrame, hentry, tableFrame]
  have htd : tableFrame m d (dirIndex v) ≠ d := by
    rcases h.paged.settled _ hk hpresent with h0 | ⟨-, hne⟩
    · omega
    · exact hne
  have htable : tableEntry { m with ram := ram } d v = tableEntry m d v := by
    rw [tableEntry, hframe]
    refine (hram (1024 * tableFrame m d (dirIndex v) + tableIndex v) (by omega) fun hf => ?_).trans
      (if_neg (by omega))
    exact (h.private_of_heapFrame (by omega) hf).ne_table _ hk hpresent (by omega)
  have hwalk : MemoryManager.walk { m with ram := ram } v = m.walk v := walk_of_words h.paged.dir_eq rfl hentry htable
  exact hwalk.trans hv

/-- The heap's addresses lead to the heap's frames, whatever is stored there. -/
theorem HeapMapped.confined (h : HeapMapped m d 256 p) (hi : i < 1024) (habs : present (dirEntry m d i) = false) :
    Confined m.translation (heapArena KERNEL_HEAP_START KERNEL_HEAP_SIZE)
      { x | HeapFrame m (x.toNat / 4096) } (AsideFrom m d i w) where
  leads ram hram a ha := by
    obtain ⟨k, hk, hpage⟩ := mem_heapArena_iff.mp ha
    obtain ⟨f, hf, hpriv⟩ := h.walk_heapPage hk
    have hlt := hpriv.lt
    have hwalk := h.walk_aside hi habs hram ((walk_page hpage).trans hf)
    have hplace : (ptr (f * 4096 + a.toNat % 4096)).toNat = f * 4096 + a.toNat % 4096 := toNat_ptr_of_lt (by omega)
    refine ⟨ptr (f * 4096 + a.toNat % 4096), ⟨k, hk, ?_⟩, translate_eq_some_iff.mpr ⟨hwalk.trans ?_, by omega⟩⟩
    · rw [hf, hplace]
      congr 2
      omega
    · refine congrArg some (BitVec.eq_of_toNat_eq ?_)
      rw [toNat_pageOf, hplace, BitVec.toNat_ofNat]
      omega
  keeps ram hram x hx v l hl hf := by
    refine Eq.trans (Memory.load32_congr fun j hj => Memory.byte_store8_of_ne ?_) (hram l hl hf)
    rintro rfl
    have hplace : HeapFrame m ((ptr (4 * l) + (j : U32)).toNat / 4096) := hx
    rw [ptr_add_cast, toNat_ptr_of_lt (by omega), show (4 * l + j) / 4096 = l / 1024 by omega] at hplace
    exact hf hplace

end Aside

/-! ## A page table at the heap's place -/

section HeapTable

variable {m s : MemoryManager} {d p t : ℕ} {w phys virt v : U32}

theorem mem_heapArena_of_frame {a : U32} (ht : 1024 ≤ t) (ht' : t < 1280)
    (ha : t * 4096 ≤ (VIRT_2_PHYS a).toNat) (ha' : (VIRT_2_PHYS a).toNat < 1280 * 4096) :
    a ∈ heapArena KERNEL_HEAP_START KERNEL_HEAP_SIZE := by
  have harena : a ∈ heapArena KERNEL_HEAP_START KERNEL_HEAP_SIZE ↔ 0xC0400000 ≤ a.toNat ∧ a.toNat < 0xC0500000 :=
    Iff.rfl
  have hlt := a.isLt
  rw [toNat_VIRT_2_PHYS] at ha ha'
  rw [harena]
  omega

/-- The translation is that of `m`, where nothing but memory has changed. -/
theorem StoredIn.translation {B : Ram → Prop} (h : StoredIn B (m.getFreePhysicalPage 1).2 s) :
    s.translation = m.translation := by
  rw [h.1]
  rfl

/-- The directory stays in place. -/
theorem HeapMapped.directory_aside (h : HeapMapped m d 256 p) (hd : d < 1024)
    (habs : present (dirEntry m d (dirIndex virt)) = false)
    (hs : StoredIn (AsideFrom m d (dirIndex virt) w) (m.getFreePhysicalPage 1).2 s) :
    PageInPlace s m.currentPageDirectory := by
  obtain ⟨hdir, -⟩ := h.windowKept.pageInPlace (by omega) (frameInWindow_of_lt hd)
  rw [← h.paged.dir_eq] at hdir
  have hwalk := h.walk_aside (dirIndex_lt virt) habs hs.2 hdir
  rw [hs.1]
  exact hwalk

/-- Creating the table clears frames of the heap, and makes the directory's entry name a frame that is as it was. -/
theorem HeapMapped.newTable_aside (h : HeapMapped m d 256 p) (hd : d < 1024)
    (habs : present (dirEntry m d (dirIndex virt)) = false) (hp : (m.getFreePhysicalPage 1).1 = ptr (t * 4096))
    (ht : 1024 ≤ t) (ht' : t < 1279) : ∃ s, m.newTable (m.directoryEntry virt) = some s ∧
      StoredIn (AsideFrom m d (dirIndex virt) (entryWord (dirEntry m d (dirIndex virt)) (pageOf (ptr (t * 4096)))))
        (m.getFreePhysicalPage 1).2 s := by
  have hi := dirIndex_lt virt
  have hdge := h.paged.dir_settled.ge
  have hself : AsideFrom m d (dirIndex virt) (dirEntry m d (dirIndex virt)) (m.getFreePhysicalPage 1).2.ram :=
    asideFrom_self
  obtain ⟨s, hs, hin⟩ := (h.confined hi habs).memset (a := PHYS_2_VIRT (ptr (t * 4096))) (v := 0)
    (n := sizeofPageTable) hself fun i hi => by
      have hi' : i < 4096 := hi
      have hplace : (VIRT_2_PHYS (PHYS_2_VIRT (ptr (t * 4096)) + ((i + 1 : ℕ) : U32))).toNat = t * 4096 + (i + 1) := by
        rw [VIRT_2_PHYS_add, VIRT_2_PHYS_PHYS_2_VIRT, ptr_add_cast, toNat_ptr_of_lt (by omega)]
      exact mem_heapArena_of_frame ht (by omega) (by omega) (by omega)
  have hcurrent : s.currentPageDirectory = m.currentPageDirectory := by
    rw [hin.1]
    rfl
  have hplace : VIRT_2_PHYS (m.directoryEntry virt) = ptr (4 * (1024 * d + dirIndex virt)) :=
    directoryEntry_eq h.paged.dir_eq
  have hentry := (h.directory_aside hd habs hin).setEntry
    (f := GET_FRAME_ADDRESS (VIRT_2_PHYS (PHYS_2_VIRT (ptr (t * 4096))))) (hcurrent.trans h.paged.dir_eq) (by omega)
    hplace (by omega) (directoryEntry_page h.paged virt)
  rw [newTable_eq, hp, hs, Option.bind_some, hentry]
  refine ⟨_, rfl, ?_, ?_⟩
  · conv_lhs => rw [hin.1]
  · intro l hl hf
    have hword := hin.2 l hl hf
    show word (flatSetEntry _ _ _) l = _
    rw [word_flatSetEntry (directoryEntry_eq h.paged.dir_eq) (by omega) hl]
    split_ifs with heq
    · subst heq
      rw [if_pos rfl] at hword
      rw [hword, VIRT_2_PHYS_PHYS_2_VIRT, GET_FRAME_ADDRESS_eq]
    · rw [hword, if_neg heq]

/-- The directory's entry of the new table. -/
theorem HeapMapped.word_new (h : HeapMapped m d 256 p) (hd : d < 1024) {ram : Ram}
    (hram : AsideFrom m d (dirIndex virt) w ram) : word ram (1024 * d + dirIndex virt) = w := by
  have hi := dirIndex_lt virt
  refine (hram (1024 * d + dirIndex virt) (by omega) fun hf => ?_).trans (if_pos rfl)
  exact (h.private_of_heapFrame (by omega) hf).ne_dir (by omega)

theorem toNat_frame_new (x : U32) (ht : t < 2 ^ 20) :
    (frame (entryWord x (pageOf (ptr (t * 4096))))).toNat = t := by
  have hpage : (pageOf (ptr (t * 4096))).toNat = t := by
    rw [toNat_pageOf, toNat_ptr_of_lt (by omega)]
    omega
  rw [frame_entryWord (by omega), hpage]

/-- Setting the entry of the page stores to the heap once more. -/
theorem HeapMapped.mapPage_aside (h : HeapMapped m d 256 p) (hd : d < 1024)
    (habs : present (dirEntry m d (dirIndex virt)) = false) (hp : (m.getFreePhysicalPage 1).1 = ptr (t * 4096))
    (ht : 1024 ≤ t) (ht' : t < 1279) (phys : U32) :
    ∃ m', m.mapPage phys virt = some m' ∧ m'.mapped = (phys, virt) :: m.mapped ∧
      m'.currentPageDirectory = m.currentPageDirectory ∧
      AsideFrom m d (dirIndex virt) (entryWord (dirEntry m d (dirIndex virt)) (pageOf (ptr (t * 4096)))) m'.ram := by
  have hi := dirIndex_lt virt
  obtain ⟨s, hs, hin⟩ := h.newTable_aside hd habs hp ht ht'
  obtain ⟨hwindow, -⟩ := h.windowKept.pageInPlace (by omega) (frameInWindow_of_lt hd)
  rw [← h.paged.dir_eq] at hwindow
  have hensure := h.paged.ensureTable_eq hwindow virt
  rw [if_neg (by rw [habs]; exact Bool.false_ne_true), hs] at hensure
  have hdir : s.currentPageDirectory = m.currentPageDirectory := by
    rw [hin.1]
    rfl
  have haddr : s.directoryEntry virt = m.directoryEntry virt := by rw [directoryEntry, hdir, directoryEntry]
  have hplace : VIRT_2_PHYS (m.directoryEntry virt) = ptr (4 * (1024 * d + dirIndex virt)) :=
    directoryEntry_eq h.paged.dir_eq
  have hload := load32_inPlace ((h.directory_aside hd habs hin).word (directoryEntry_page h.paged virt) (by
    have hnat := congrArg BitVec.toNat hplace
    rw [toNat_VIRT_2_PHYS, toNat_ptr] at hnat
    omega))
  have hword := h.word_new hd hin.2
  rw [word] at hword
  rw [hplace, hword] at hload
  have hentry : WordIn (heapArena KERNEL_HEAP_START KERNEL_HEAP_SIZE)
      (PHYS_2_VIRT (ptr (t * 4096) + 4 * PAGE_TABLE_INDEX virt)) := by
    intro j hj
    have hidx := tableIndex_lt virt
    have hto : (VIRT_2_PHYS (PHYS_2_VIRT (ptr (t * 4096) + 4 * PAGE_TABLE_INDEX virt) + (j : U32))).toNat =
        4 * (1024 * t + tableIndex virt) + j := by
      rw [VIRT_2_PHYS_add, VIRT_2_PHYS_PHYS_2_VIRT, ptr_frame_add, toNat_PAGE_TABLE_INDEX, ptr_add_cast,
        toNat_ptr_of_lt (by omega)]
    exact mem_heapArena_of_frame ht (by omega) (by omega) (by omega)
  obtain ⟨s', hs', hin'⟩ := (h.confined hi habs).setEntry hin.2 hentry (GET_FRAME_ADDRESS phys)
  rw [mapPage_eq, hensure, Option.bind_some, haddr, hload, Option.bind_some, PAGE_GET_PHYSICAL_ADDRESS_eq,
    toNat_frame_new _ (by omega), hin.translation, hs']
  refine ⟨_, rfl, ?_, ?_, hin'.2⟩
  · show (phys, virt) :: s'.mapped = _
    rw [hin'.1, hin.1]
    rfl
  · show s'.currentPageDirectory = _
    rw [hin'.1]
    exact hdir

/-- The processor reads the table of the new entry in its frame, where nothing was stored. -/
theorem HeapMapped.mapPage_stale (h : HeapMapped m d 256 p) (hd : d < 1024)
    (habs : present (dirEntry m d (dirIndex virt)) = false) (hp : (m.getFreePhysicalPage 1).1 = ptr (t * 4096))
    (hfree : m.pmm.memoryMap.bit t = false) (ht : 1024 ≤ t) (ht' : t < 1279) (phys : U32) :
    ∃ m', m.mapPage phys virt = some m' ∧ m'.mapped = (phys, virt) :: m.mapped ∧
      ∀ v, dirIndex v = dirIndex virt → m'.walk v =
        if present (word m.ram (1024 * t + tableIndex v)) then some (frame (word m.ram (1024 * t + tableIndex v)))
        else none := by
  obtain ⟨m', hm', hmapped, hdir, haside⟩ := h.mapPage_aside hd habs hp ht ht' phys
  refine ⟨m', hm', hmapped, fun v hv => ?_⟩
  have hi := dirIndex_lt virt
  have hj := tableIndex_lt v
  -- The frame is free before, so it is not one of the heap's.
  have hnot : ¬ HeapFrame m t := fun hf => by
    rw [(h.private_of_heapFrame (by omega) hf).used] at hfree
    cases hfree
  have htable : word m'.ram (1024 * t + tableIndex v) = word m.ram (1024 * t + tableIndex v) := by
    refine (haside _ (by omega) ?_).trans (if_neg (by omega))
    rwa [show (1024 * t + tableIndex v) / 1024 = t by omega]
  rw [walk_eq_entries (hdir.trans h.paged.dir_eq), tableEntry, tableFrame, dirEntry, hv]
  simp only [h.word_new hd haside, toNat_frame_new _ (show t < 2 ^ 20 by omega), htable, present_entryWord,
    Bool.true_and]

end HeapTable

/-! ## A run that gets there -/

theorem HeapMapped.getFreePhysicalPage {m : MemoryManager} {d k p : ℕ} (h : HeapMapped m d k p) (size : U32) :
    HeapMapped (m.getFreePhysicalPage size).2 d k p where
  paged := h.paged.getFreePhysicalPage size
  zero := h.zero
  window := h.window
  absent := h.absent
  pending := h.pending.getFreePhysicalPage size
  frames l hl := by
    obtain ⟨f, hf, hpriv, hne⟩ := h.frames l hl
    exact ⟨f, hf, hpriv.getFreePhysicalPage size, hne⟩
  distinct := h.distinct
  outside := h.outside

/-- On the PC with 16 MiB, a program first takes 400 frames. The next page table lies in a frame whose place in the
    window is the kernel heap's, and the page that is mapped then has no translation. -/
theorem smallPc_not_translated : ∃ m₀ m,
    Booted ⟨MB 16, 0, 0, { byte := fun _ => 0 }⟩ smallPc { byte := fun _ => 0 } 0 m₀ ∧
      Run (fun m op m' => m.exec op = some m' ∧ TableGranted m op) m₀
        [.getFreePhysicalPage 400, .mapPage 0x1000 0x40000000] m ∧
      lastMapping m 0x40000000 = some 1 ∧ m.walk 0x40000000 = none := by
  obtain ⟨m₀, hboot, q, hq, hq', hfree⟩ := booted_smallPc { byte := fun _ => 0 } { byte := fun _ => 0 } 0
  obtain ⟨d, p, h, hd⟩ := hboot.heapMapped
  have hsize : (400 : U32).toNat = 400 := rfl
  obtain ⟨-, hg, hfree'⟩ := hfree.getFreePhysicalPages 400 hboot.granted (by omega) (by omega)
  rw [hsize] at hfree'
  have h' := h.getFreePhysicalPage 400
  have habs := h'.absent (dirIndex 0x40000000) (by decide) (by decide) (by decide) (by decide)
  obtain ⟨-, hgrant⟩ := hfree'.newTable h'.paged hg (by omega) habs 0x1000
  have hp := (hfree'.getFreePhysicalPage (by omega) hg).1
  have hclear := hfree'.free (q + 400) le_rfl (by omega)
  obtain ⟨m, hm, hmapped, hwalk⟩ := h'.mapPage_stale hd habs hp hclear (by omega) (by omega) 0x1000
  refine ⟨m₀, m, hboot, .snoc _ (.snoc _ .nil ⟨rfl, trivial⟩) ⟨hm, hgrant⟩, ?_, ?_⟩
  · rw [lastMapping, hmapped, lastMapped, if_pos rfl]
    rfl
  · -- The frame holds what it held before the boot.
    have hbyte : (m₀.ram.byte (ptr ((q + 400) * 4096))).getLsbD 0 = false := by
      have hfresh := hfree.free (q + 400) (by omega) (by omega)
      obtain ⟨heq, hinit⟩ := hboot.eq_flat
      rw [heq] at hfresh ⊢
      refine (byte_flatInitVMM (m := bootState ⟨MB 16, 0, 0, { byte := fun _ => 0 }⟩ smallPc
        { byte := fun _ => 0 } 0) (fun _ => initPMM_reserved) rfl hinit hfresh (by omega) (by omega)).trans ?_
      exact BitVec.getLsbD_zero
    rw [getLsbD_byte (by omega)] at hbyte
    have hindex : tableIndex 0x40000000 = 0 := by decide
    have hram : (m₀.getFreePhysicalPage 400).2.ram = m₀.ram := rfl
    rw [hwalk 0x40000000 rfl, hindex, Nat.add_zero, hram, present, hbyte, if_neg Bool.false_ne_true]

end Pros
