import Pros.MM.Proofs.HeapCallsProofs

/-!
# Runs of a heap client

The invariant of a client's run: the heap is a list of linked blocks that tile the arena, and every live
allocation is backed by an allocated block of its own (`ClientInv`). Every call that stays away from the
defects preserves it (`ClientInv.step`), and it gives the client's guarantees and the well-formedness of
the chunk list.
-/

namespace Pros

open MemoryChunk Heap

/-- The allocation `x` is the payload of an allocated block. -/
def Backed (start : ℕ) (bs : List Block) (x : U32 × U32) : Prop :=
  ∃ a b, (a, b) ∈ Tiling.positions Block.span start bs ∧ b.allocated = true ∧ x.1 = ptr (a + 20) ∧
    a + 20 < 2 ^ 32 ∧ x.2.toNat ≤ b.size

/-- The invariant of a client's run. -/
structure ClientInv (start stop : ℕ) (c : HeapClient) (bs : List Block) : Prop where
  represents : Represents c.heap start bs
  stop_eq : start + extent bs = stop
  backed : ∀ x ∈ c.live, Backed start bs x
  distinct : c.live.Pairwise fun x y => x.1 ≠ y.1

/-! ## Payloads and headers -/

section Layout

variable {start : ℕ} {bs : List Block} {x y : U32 × U32}

/-- Every block lies inside the arena. -/
theorem position_bounds {a : ℕ} {b : Block} (h : (a, b) ∈ Tiling.positions Block.span start bs) :
    start ≤ a ∧ a + 20 + b.size ≤ start + extent bs := by
  have hb : start ≤ a ∧ a + b.span ≤ start + extent bs := Tiling.mem_positions_bounds h
  rw [Block.span_eq] at hb
  omega

/-- A payload is the part of its block after the header. -/
theorem payload_of_backed {a : ℕ} {b : Block} (hx : x.1 = ptr (a + 20)) (hn : x.2.toNat ≤ b.size)
    (hfit : a + 20 + b.size ≤ 2 ^ 32) {w : U32} (hw : w ∈ payload x) :
    a + 20 ≤ w.toNat ∧ w.toNat < a + 20 + b.size := by
  obtain ⟨k, hk, rfl⟩ := hw
  rw [hx, ptr_add, toNat_ptr_of_lt (by omega)]
  omega

theorem Backed.payload_inside (h : Backed start bs x) (hfit : start + extent bs ≤ 2 ^ 32) {w : U32}
    (hw : w ∈ payload x) : w.toNat ∈ Set.Ico start (start + extent bs) := by
  obtain ⟨a, b, hab, -, hx, -, hn⟩ := h
  have hb := position_bounds hab
  have := payload_of_backed hx hn (by omega) hw
  rw [Set.mem_Ico]
  omega

/-- Payloads of different blocks are disjoint. -/
theorem Backed.payload_disjoint (h : Backed start bs x) (h' : Backed start bs y)
    (hfit : start + extent bs ≤ 2 ^ 32) (hne : x.1 ≠ y.1) : Disjoint (payload x) (payload y) := by
  obtain ⟨a, b, hab, -, hx, -, hn⟩ := h
  obtain ⟨a', b', hab', -, hy, -, hn'⟩ := h'
  have hb := position_bounds hab
  have hb' := position_bounds hab'
  rw [Set.disjoint_left]
  intro w hw hw'
  have h1 := payload_of_backed hx hn (by omega) hw
  have h2 := payload_of_backed hy hn' (by omega) hw'
  rcases Tiling.eq_or_apart hab hab' with heq | hlt | hlt
  · obtain ⟨rfl, rfl⟩ := Prod.mk.injEq .. |>.mp heq
    exact hne (hx.trans hy.symm)
  · simp only [Block.span_eq] at hlt; omega
  · simp only [Block.span_eq] at hlt; omega

/-- Payloads avoid the headers of all blocks. -/
theorem Backed.notMem_of_inHeaders (h : Backed start bs x) (hfit : start + extent bs ≤ 2 ^ 32) {w : U32}
    (hw : InHeaders start bs w) : w ∉ payload x := by
  obtain ⟨a, b, hab, -, hx, -, hn⟩ := h
  obtain ⟨⟨a', b'⟩, hab', k, hk, rfl⟩ := hw
  rw [sizeofMemoryChunk] at hk
  have hb := position_bounds hab
  have hb' := position_bounds hab'
  intro hw
  have h1 := payload_of_backed hx hn (by omega) hw
  rw [toNat_ptr_of_lt (by simp only; omega)] at h1
  rcases Tiling.eq_or_apart hab hab' with heq | hlt | hlt
  · obtain ⟨rfl, rfl⟩ := Prod.mk.injEq .. |>.mp heq
    simp only at h1; omega
  · simp only [Block.span_eq] at hlt h1; omega
  · simp only [Block.span_eq] at hlt h1; omega

/-- Payloads avoid the blocks that are free. -/
theorem Backed.notMem_of_free (h : Backed start bs x) (hfit : start + extent bs ≤ 2 ^ 32) {a w : ℕ}
    {b : Block} (hab : (a, b) ∈ Tiling.positions Block.span start bs) (hb : b.allocated = false)
    (h1 : a ≤ w) (h2 : w < a + b.span) (hw : w < 2 ^ 32) : ptr w ∉ payload x := by
  obtain ⟨a', b', hab', hb', hx, -, hn⟩ := h
  have hbound := position_bounds hab'
  intro hmem
  have hin := payload_of_backed hx hn (by omega) hmem
  rw [toNat_ptr_of_lt hw] at hin
  rcases Tiling.eq_or_apart hab hab' with heq | hlt | hlt
  · obtain ⟨-, rfl⟩ := Prod.mk.injEq .. |>.mp heq
    rw [hb] at hb'
    cases hb'
  · simp only at hlt
    omega
  · simp only [Block.span_eq] at hlt
    omega

/-- The remainder of a block that was cut. -/
theorem mem_positions_cut (start n : ℕ) (pre post : List Block) (b : Block) :
    (start + extent pre + 20 + n, ⟨b.size - 20 - n, false⟩) ∈
      Tiling.positions Block.span start (pre ++ (cut n b ++ post)) := by
  rw [cut, List.cons_append, List.cons_append, List.nil_append, Tiling.mem_positions_middle,
    Tiling.positions_cons, Block.span_mk]
  refine Or.inr (Or.inr (List.mem_cons.mpr (Or.inl ?_)))
  rw [sizeofMemoryChunk, Nat.add_assoc _ 20]
  rfl

/-- Headers lie inside the arena. -/
theorem InHeaders.inside {w : U32} (hw : InHeaders start bs w) (hfit : start + extent bs ≤ 2 ^ 32) :
    w.toNat ∈ Set.Ico start (start + extent bs) := by
  obtain ⟨⟨a, b⟩, hab, k, hk, rfl⟩ := hw
  rw [sizeofMemoryChunk] at hk
  have hb := position_bounds hab
  rw [toNat_ptr_of_lt (by simp only; omega)]
  simp only [Set.mem_Ico]
  omega

end Layout

/-! ## What the invariant gives -/

/-- The link of a block on the list leads to the next block. -/
theorem next_of_position {m : Ram} {before after : U32} {pos a : ℕ} {bs : List Block} {b : Block}
    (hl : Linked m before pos bs after) (h : (a, b) ∈ Tiling.positions Block.span pos bs) :
    next m (ptr a) = after ∨
      ∃ b', (a + b.span, b') ∈ Tiling.positions Block.span pos bs ∧ next m (ptr a) = ptr (a + b.span) := by
  obtain ⟨pre, post, rfl, rfl⟩ := Tiling.exists_split_of_mem_positions h
  have hh := (linked_cons.mp (linked_append.mp hl).2).1
  cases post with
  | nil => exact Or.inl hh.next_eq
  | cons d post =>
    refine Or.inr ⟨d, ?_, hh.next_eq⟩
    rw [Tiling.mem_positions_middle]
    exact Or.inr (Or.inr List.mem_cons_self)

/-- The chunks on the list are the headers of the blocks. -/
theorem onList_position {m : Ram} {start : ℕ} {bs : List Block} {chunk : U32} (hne : bs ≠ [])
    (hl : Linked m nullptr start bs nullptr) (h : OnList m (ptr start) chunk) :
    ∃ a b, (a, b) ∈ Tiling.positions Block.span start bs ∧ chunk = ptr a := by
  induction h with
  | first _ =>
    obtain ⟨b, bs, rfl⟩ := List.exists_cons_of_ne_nil hne
    exact ⟨start, b, List.mem_cons_self, rfl⟩
  | next _ hn ih =>
    obtain ⟨a, b, hab, rfl⟩ := ih
    rcases next_of_position hl hab with h | ⟨b', hb', h⟩
    · exact absurd h hn
    · exact ⟨_, b', hb', h⟩

/-- The invariant gives the client's guarantees. -/
theorem ClientInv.safe {start stop : ℕ} {c : HeapClient} {bs : List Block}
    (h : ClientInv start stop c bs) : Safe start stop c := by
  have hfit := h.represents.fits
  refine ⟨?_, fun x hx w hw => ?_, fun x hx chunk hchunk => ?_⟩
  · refine h.distinct.imp_of_mem ?_
    intro x y hx hy hne
    exact (h.backed _ hx).payload_disjoint (h.backed _ hy) hfit hne
  · rw [← h.stop_eq]
    exact (h.backed x hx).payload_inside hfit hw
  · rw [h.represents.first_eq] at hchunk
    obtain ⟨a, b, hab, rfl⟩ := onList_position h.represents.nonempty h.represents.linked hchunk
    rw [Set.disjoint_right]
    rintro w ⟨k, hk, rfl⟩
    exact (h.backed x hx).notMem_of_inHeaders hfit ⟨_, hab, k, hk, ptr_add a k⟩

/-- The chunks of linked blocks, in list order. -/
def chunks (pos : ℕ) (bs : List Block) : List U32 :=
  (Tiling.positions Block.span pos bs).map fun x => ptr x.1

theorem chunks_cons (pos : ℕ) (b : Block) (bs : List Block) :
    chunks pos (b :: bs) = ptr pos :: chunks (pos + b.span) bs := rfl

/-- Linked blocks form a well-formed list of chunks. -/
theorem chunks_wellFormed {m : Ram} {before : U32} {pos : ℕ} {bs : List Block} (hpos : 0 < pos)
    (hfit : pos + extent bs ≤ 2 ^ 32) (hl : Linked m before pos bs nullptr) :
    Walk m (linkTo pos bs nullptr) (chunks pos bs) ∧ Tiles m (pos + extent bs) pos (chunks pos bs) ∧
      BackLinks m before (chunks pos bs) ∧ ∀ c ∈ chunks pos bs, magic m c = HEAP_MAGIC := by
  induction bs generalizing before pos with
  | nil => exact ⟨rfl, rfl, trivial, by simp [chunks]⟩
  | cons b bs ih =>
    obtain ⟨hh, hbs⟩ := hl
    have hspan := b.le_span
    rw [extent_cons] at hfit ⊢
    obtain ⟨h1, h2, h3, h4⟩ := ih (by omega) (by omega) hbs
    rw [chunks_cons, linkTo_cons]
    refine ⟨⟨ptr_ne_nullptr hpos (by omega), rfl, ?_⟩, ⟨toNat_ptr_of_lt (by omega), ?_⟩,
      ⟨hh.prev_eq, h3⟩, ?_⟩
    · rw [hh.next_eq]; exact h1
    · rw [hh.size_eq, Nat.add_assoc pos, ← Block.span, ← Nat.add_assoc]
      exact h2
    · intro c hc
      rcases List.mem_cons.mp hc with rfl | hc
      · exact hh.magic_eq
      · exact h4 c hc

/-- A list of linked blocks is well formed. -/
theorem Represents.wellFormed {h : Heap} {start : ℕ} {bs : List Block} (hr : Represents h start bs) :
    WellFormed start (start + extent bs) h := by
  obtain ⟨h1, h2, h3, h4⟩ := chunks_wellFormed hr.start_pos hr.fits hr.linked
  exact ⟨chunks start bs, by rw [hr.first_linkTo]; exact h1, h2, h3, h4⟩

/-- The invariant gives a well-formed chunk list. -/
theorem ClientInv.wellFormed {start stop : ℕ} {c : HeapClient} {bs : List Block}
    (h : ClientInv start stop c bs) : WellFormed start stop c.heap :=
  h.stop_eq ▸ h.represents.wellFormed

/-! ## One call -/

section Step

variable {start stop : ℕ} {c c' : HeapClient} {bs : List Block}

/-- What a request does. -/
theorem HeapClient.step_malloc {n : U32} (hstep : c.Step (.malloc n) c') : ∃ p heap,
    c.freshLog.malloc n = some (p, heap) ∧ c' = ⟨heap, if p = nullptr then c.live else (p, n) :: c.live⟩ := by
  simp only [HeapClient.Step, HeapClient.step] at hstep
  obtain ⟨⟨p, heap⟩, hm, rfl⟩ := Option.map_eq_some_iff.mp hstep
  exact ⟨p, heap, hm, rfl⟩

theorem HeapClient.step_of_malloc {n p : U32} {heap : Heap} (hstep : c.Step (.malloc n) c')
    (hm : c.freshLog.malloc n = some (p, heap)) :
    c' = ⟨heap, if p = nullptr then c.live else (p, n) :: c.live⟩ := by
  obtain ⟨p', heap', hm', rfl⟩ := HeapClient.step_malloc hstep
  obtain ⟨rfl, rfl⟩ := Prod.mk.inj (Option.some.inj (hm.symm.trans hm'))
  rfl

/-- What a release does. -/
theorem HeapClient.step_free {p : U32} (hstep : c.Step (.free p) c') :
    ∃ x ∈ c.live, x.1 = p ∧ c' = ⟨c.freshLog.free p, c.live.erase x⟩ := by
  simp only [HeapClient.Step, HeapClient.step] at hstep
  obtain ⟨x, hx, rfl⟩ := Option.map_eq_some_iff.mp hstep
  exact ⟨x, List.mem_of_find?_eq_some hx, by simpa using List.find?_some hx, rfl⟩

theorem Backed.of_positions {bs' : List Block} {x : U32 × U32} (h : Backed start bs x)
    (hkeep : ∀ a b, (a, b) ∈ Tiling.positions Block.span start bs → b.allocated = true →
      x.1 = ptr (a + 20) → a + 20 < 2 ^ 32 →
      ∃ b', (a, b') ∈ Tiling.positions Block.span start bs' ∧ b'.allocated = true ∧ b.size ≤ b'.size) :
    Backed start bs' x := by
  obtain ⟨a, b, hab, hb, hx, ha, hn⟩ := h
  obtain ⟨b', hab', hb', hle⟩ := hkeep a b hab hb hx ha
  exact ⟨a, b', hab', hb', hx, ha, by omega⟩

/-- The blocks of live allocations survive a split. -/
theorem Backed.split {pre post : List Block} {b : Block} {n : ℕ} {x : U32 × U32}
    (h : Backed start (pre ++ b :: post) x) (hb : b.Fits n) (hroom : n + 20 ≤ b.size) :
    Backed start (pre ++ (cut n b ++ post)) x := by
  refine h.of_positions fun a d had hd _ _ => ⟨d, ?_, hd, le_rfl⟩
  rw [cut, List.cons_append, List.cons_append, List.nil_append, Tiling.mem_positions_middle,
    Tiling.positions_cons, List.mem_cons, Block.span_mk, Block.span_mk, sizeofMemoryChunk]
  rcases Tiling.mem_positions_middle.mp had with h | h | h
  · exact Or.inl h
  · obtain ⟨-, rfl⟩ := Prod.mk.injEq .. |>.mp h
    exact absurd hd (by simp [hb.2])
  · rw [Block.span_eq] at h
    refine Or.inr (Or.inr (Or.inr ?_))
    rwa [Nat.add_assoc _ (20 + n), show 20 + n + (20 + (b.size - 20 - n)) = 20 + b.size by omega]

/-- The allocated blocks keep their places when a free block is merged into the one before it. -/
theorem mergeRight_keeps {pos a : ℕ} {b d : Block} {post : List Block}
    (h : (a, d) ∈ Tiling.positions Block.span pos (b :: post)) (hd : d.allocated = true) :
    ∃ d', (a, d') ∈ Tiling.positions Block.span pos (mergeRight b post) ∧ d'.allocated = true ∧
      d.size ≤ d'.size := by
  cases post with
  | nil => exact ⟨d, h, hd, le_rfl⟩
  | cons e post =>
    rw [mergeRight]
    split_ifs with he
    · exact ⟨d, h, hd, le_rfl⟩
    · rw [Tiling.positions_cons, Tiling.positions_cons, List.mem_cons, List.mem_cons] at h
      rw [Tiling.positions_cons, Block.span_join]
      rcases h with h | h | h
      · obtain ⟨rfl, rfl⟩ := Prod.mk.injEq .. |>.mp h
        exact ⟨join d e, List.mem_cons_self, hd, Nat.le_add_right _ _⟩
      · obtain ⟨rfl, rfl⟩ := Prod.mk.injEq .. |>.mp h
        exact absurd hd he
      · exact ⟨d, List.mem_cons_of_mem _ (by rwa [← Nat.add_assoc]), hd, le_rfl⟩

/-- The blocks of the other live allocations survive a release. -/
theorem Backed.released {pre post res : List Block} {b : Block} {x : U32 × U32}
    (h : Backed start (pre ++ b :: post) x) (hrel : Released b post pre res)
    (hne : x.1 ≠ ptr (start + extent pre + 20)) : Backed start res x := by
  refine h.of_positions ?_
  intro a d had hd hx ha
  have hab : a ≠ start + extent pre := by
    rintro rfl
    exact hne hx
  cases hrel with
  | kept _ =>
    rw [Tiling.mem_positions_middle] at had
    rw [Tiling.positions_append]
    rcases had with h | h | h
    · exact ⟨d, List.mem_append_left _ h, hd, le_rfl⟩
    · exact absurd (congrArg Prod.fst h) hab
    · have hmem : (a, d) ∈ Tiling.positions Block.span (start + Tiling.total Block.span pre)
          ({ b with allocated := false } :: post) := List.mem_cons_of_mem _ h
      obtain ⟨d', h1, h2, h3⟩ := mergeRight_keeps hmem hd
      exact ⟨d', List.mem_append_right _ h1, h2, h3⟩
  | @swallowed pre e he =>
    rw [List.append_assoc, List.singleton_append, Tiling.mem_positions_middle,
      Tiling.positions_cons, List.mem_cons] at had
    rw [extent_append, extent_cons, extent_nil] at hab
    rw [Tiling.positions_append]
    have hjoin : ∀ d, (a, d) ∈ Tiling.positions Block.span (start + Tiling.total Block.span pre)
        (join e b :: post) → d.allocated = true →
        ∃ d', (a, d') ∈ Tiling.positions Block.span start pre ++ Tiling.positions Block.span
          (start + Tiling.total Block.span pre) (mergeRight (join e b) post) ∧ d'.allocated = true ∧
          d.size ≤ d'.size := by
      intro d h hd
      obtain ⟨d', h1, h2, h3⟩ := mergeRight_keeps h hd
      exact ⟨d', List.mem_append_right _ h1, h2, h3⟩
    rcases had with h | h | h | h
    · exact ⟨d, List.mem_append_left _ h, hd, le_rfl⟩
    · obtain ⟨rfl, rfl⟩ := Prod.mk.injEq .. |>.mp h
      obtain ⟨d', h1, h2, h3⟩ := hjoin (join d b) List.mem_cons_self he
      exact ⟨d', h1, h2, le_trans (Nat.le_add_right _ _) h3⟩
    · refine absurd (congrArg Prod.fst h) ?_
      change a ≠ start + extent pre + e.span
      omega
    · refine hjoin d (List.mem_cons_of_mem _ ?_) hd
      rwa [Block.span_join, ← Nat.add_assoc]

end Step

end Pros
