import Pros.MM.HeapBlocks
import Pros.Lib.Proofs.RamProofs

/-!
# Headers and linked blocks in memory

Headers occupy the 20 bytes at their position and depend on nothing else, so linked blocks survive any
change of memory outside their range (`Linked.congr`). A list of linked blocks can be cut at any point
(`linked_append`).
-/

namespace Pros

open MemoryChunk

/-! ## Fields at positions -/

theorem next_ptr (m : Ram) (p : ℕ) : next m (ptr p) = m.load32 (ptr p) := rfl

theorem prev_ptr (m : Ram) (p : ℕ) : prev m (ptr p) = m.load32 (ptr (p + 4)) := by
  rw [prev, ptr_add_ofNat]

theorem magic_ptr (m : Ram) (p : ℕ) : magic m (ptr p) = m.load32 (ptr (p + 8)) := by
  rw [magic, ptr_add_ofNat]

theorem allocated_ptr (m : Ram) (p : ℕ) : allocated m (ptr p) = (m.byte (ptr (p + 12)) != 0) := by
  rw [allocated, ptr_add_ofNat]

theorem size_ptr (m : Ram) (p : ℕ) : size m (ptr p) = m.load32 (ptr (p + 16)) := by
  rw [size, ptr_add_ofNat]

theorem setNext_ptr (m : Ram) (p : ℕ) (v : U32) : setNext m (ptr p) v = m.store32 (ptr p) v := rfl

theorem setPrev_ptr (m : Ram) (p : ℕ) (v : U32) :
    setPrev m (ptr p) v = m.store32 (ptr (p + 4)) v := by
  rw [setPrev, ptr_add_ofNat]

theorem setMagic_ptr (m : Ram) (p : ℕ) (v : U32) :
    setMagic m (ptr p) v = m.store32 (ptr (p + 8)) v := by
  rw [setMagic, ptr_add_ofNat]

theorem setAllocated_ptr (m : Ram) (p : ℕ) (v : Bool) :
    setAllocated m (ptr p) v = m.store8 (ptr (p + 12)) (if v then 1 else 0) := by
  rw [setAllocated, ptr_add_ofNat]

theorem setSize_ptr (m : Ram) (p : ℕ) (v : U32) :
    setSize m (ptr p) v = m.store32 (ptr (p + 16)) v := by
  rw [setSize, ptr_add_ofNat]

/-! ## Headers -/

section Header

variable {m m' : Ram} {p : ℕ} {prv nxt : U32} {b : Block}

/-- Fields depend on the 20 bytes of their header only. -/
theorem fields_congr (h : ∀ x, p ≤ x → x < p + 20 → m'.byte (ptr x) = m.byte (ptr x)) :
    next m' (ptr p) = next m (ptr p) ∧ prev m' (ptr p) = prev m (ptr p) ∧
      magic m' (ptr p) = magic m (ptr p) ∧ allocated m' (ptr p) = allocated m (ptr p) ∧
      size m' (ptr p) = size m (ptr p) := by
  refine ⟨?_, ?_, ?_, ?_, ?_⟩
  · exact load32_ptr_congr fun x h1 h2 => h x (by omega) (by omega)
  · rw [prev_ptr, prev_ptr]
    exact load32_ptr_congr fun x h1 h2 => h x (by omega) (by omega)
  · rw [magic_ptr, magic_ptr]
    exact load32_ptr_congr fun x h1 h2 => h x (by omega) (by omega)
  · rw [allocated_ptr, allocated_ptr, h (p + 12) (by omega) (by omega)]
  · rw [size_ptr, size_ptr]
    exact load32_ptr_congr fun x h1 h2 => h x (by omega) (by omega)

/-- A header survives any change outside its bytes. -/
theorem Header.congr (hb : Header m p prv nxt b)
    (h : ∀ x, p ≤ x → x < p + 20 → m'.byte (ptr x) = m.byte (ptr x)) : Header m' p prv nxt b := by
  obtain ⟨h1, h2, h3, h4, h5⟩ := fields_congr h
  exact ⟨h1.trans hb.next_eq, h2.trans hb.prev_eq, h3.trans hb.magic_eq, h4.trans hb.allocated_eq,
    by rw [h5]; exact hb.size_eq⟩

/-- Storing one field leaves the others. -/
theorem Header.store_next (hb : Header m p prv nxt b) (v : U32) :
    Header (setNext m (ptr p) v) p prv v b := by
  rw [setNext_ptr]
  refine ⟨?_, ?_, ?_, ?_, ?_⟩
  · rw [next_ptr, Memory.load32_store32]
  · rw [← hb.prev_eq, prev_ptr, prev_ptr]
    exact load32_store32_ptr_of_ne (by omega) (by omega) (by omega)
  · rw [← hb.magic_eq, magic_ptr, magic_ptr]
    exact load32_store32_ptr_of_ne (by omega) (by omega) (by omega)
  · rw [← hb.allocated_eq, allocated_ptr, allocated_ptr,
      byte_store32_ptr_of_ne (by omega) (by omega) (by omega)]
  · rw [← hb.size_eq, size_ptr, size_ptr, load32_store32_ptr_of_ne (by omega) (by omega) (by omega)]

theorem Header.store_size (hb : Header m p prv nxt b) (s : U32) :
    Header (setSize m (ptr p) s) p prv nxt ⟨s.toNat, b.allocated⟩ := by
  rw [setSize_ptr]
  refine ⟨?_, ?_, ?_, ?_, ?_⟩
  · rw [← hb.next_eq, next_ptr, next_ptr]
    exact load32_store32_ptr_of_ne (by omega) (by omega) (by omega)
  · rw [← hb.prev_eq, prev_ptr, prev_ptr]
    exact load32_store32_ptr_of_ne (by omega) (by omega) (by omega)
  · rw [← hb.magic_eq, magic_ptr, magic_ptr]
    exact load32_store32_ptr_of_ne (by omega) (by omega) (by omega)
  · rw [← hb.allocated_eq, allocated_ptr, allocated_ptr,
      byte_store32_ptr_of_ne (by omega) (by omega) (by omega)]
  · rw [size_ptr, Memory.load32_store32]

theorem Header.store_allocated (hb : Header m p prv nxt b) (a : Bool) :
    Header (setAllocated m (ptr p) a) p prv nxt ⟨b.size, a⟩ := by
  rw [setAllocated_ptr]
  refine ⟨?_, ?_, ?_, ?_, ?_⟩
  · rw [← hb.next_eq, next_ptr, next_ptr]
    exact load32_store8_ptr_of_ne (by omega) (by omega) (by omega)
  · rw [← hb.prev_eq, prev_ptr, prev_ptr]
    exact load32_store8_ptr_of_ne (by omega) (by omega) (by omega)
  · rw [← hb.magic_eq, magic_ptr, magic_ptr]
    exact load32_store8_ptr_of_ne (by omega) (by omega) (by omega)
  · rw [allocated_ptr, Memory.byte_store8_same]
    cases a <;> rfl
  · rw [← hb.size_eq, size_ptr, size_ptr, load32_store8_ptr_of_ne (by omega) (by omega) (by omega)]

end Header

/-! ## Linked blocks -/

theorem Block.le_span (b : Block) : 20 ≤ b.span := Nat.le_add_right _ _

theorem Block.span_eq (b : Block) : b.span = 20 + b.size := rfl

theorem Block.span_mk (n : ℕ) (a : Bool) : Block.span ⟨n, a⟩ = 20 + n := rfl

@[simp] theorem extent_nil : extent [] = 0 := rfl

@[simp] theorem extent_cons (b : Block) (bs : List Block) : extent (b :: bs) = b.span + extent bs := rfl

@[simp] theorem extent_append (xs ys : List Block) : extent (xs ++ ys) = extent xs + extent ys :=
  Tiling.total_append _ _ _

@[simp] theorem linkTo_nil (pos : ℕ) (after : U32) : linkTo pos [] after = after := rfl

@[simp] theorem linkTo_cons (pos : ℕ) (b : Block) (bs : List Block) (after : U32) :
    linkTo pos (b :: bs) after = ptr pos := rfl

@[simp] theorem lastOf_nil (before : U32) (pos : ℕ) : lastOf before pos [] = before := rfl

@[simp] theorem lastOf_cons (before : U32) (pos : ℕ) (b : Block) (bs : List Block) :
    lastOf before pos (b :: bs) = lastOf (ptr pos) (pos + b.span) bs := rfl

theorem linkTo_append (pos : ℕ) (xs ys : List Block) (after : U32) :
    linkTo pos (xs ++ ys) after = linkTo pos xs (linkTo (pos + extent xs) ys after) := by
  cases xs <;> simp

theorem lastOf_append (before : U32) (pos : ℕ) (xs ys : List Block) :
    lastOf before pos (xs ++ ys) = lastOf (lastOf before pos xs) (pos + extent xs) ys := by
  induction xs generalizing before pos with
  | nil => simp
  | cons b xs ih => simp [ih, Nat.add_assoc]

@[simp] theorem linked_nil (m : Ram) (before : U32) (pos : ℕ) (after : U32) :
    Linked m before pos [] after := trivial

theorem linked_cons {m : Ram} {before : U32} {pos : ℕ} {b : Block} {bs : List Block} {after : U32} :
    Linked m before pos (b :: bs) after ↔
      Header m pos before (linkTo (pos + b.span) bs after) b ∧
        Linked m (ptr pos) (pos + b.span) bs after := Iff.rfl

/-- Linked blocks are two lists of linked blocks that point at each other. -/
theorem linked_append {m : Ram} {before : U32} {pos : ℕ} {xs ys : List Block} {after : U32} :
    Linked m before pos (xs ++ ys) after ↔
      Linked m before pos xs (linkTo (pos + extent xs) ys after) ∧
        Linked m (lastOf before pos xs) (pos + extent xs) ys after := by
  induction xs generalizing before pos with
  | nil => simp
  | cons b xs ih =>
    rw [List.cons_append, linked_cons, linked_cons, ih, linkTo_append, extent_cons,
      ← Nat.add_assoc, lastOf_cons, and_assoc]

/-- Linked blocks survive any change outside their range. -/
theorem Linked.congr {m m' : Ram} {before : U32} {pos : ℕ} {bs : List Block} {after : U32}
    (hb : Linked m before pos bs after)
    (h : ∀ x, pos ≤ x → x < pos + extent bs → m'.byte (ptr x) = m.byte (ptr x)) :
    Linked m' before pos bs after := by
  induction bs generalizing before pos with
  | nil => trivial
  | cons b bs ih =>
    have hspan := b.le_span
    rw [extent_cons] at h
    exact ⟨hb.1.congr fun x h1 h2 => h x h1 (by omega),
      ih hb.2 fun x h1 h2 => h x (by omega) (by omega)⟩

/-- Linked blocks with another predecessor: only the first header's `prev` is different. -/
theorem Linked.relink {m m' : Ram} {before before' : U32} {pos : ℕ} {b : Block} {bs : List Block}
    {after : U32} (hb : Linked m before pos (b :: bs) after)
    (h : ∀ x, pos ≤ x → x < pos + extent (b :: bs) → (x < pos + 4 ∨ pos + 8 ≤ x) →
      m'.byte (ptr x) = m.byte (ptr x)) (hprev : prev m' (ptr pos) = before') :
    Linked m' before' pos (b :: bs) after := by
  have hspan := b.le_span
  rw [extent_cons] at h
  obtain ⟨hh, hbs⟩ := hb
  refine ⟨⟨?_, hprev, ?_, ?_, ?_⟩, hbs.congr fun x h1 h2 => h x (by omega) (by omega) (by omega)⟩
  · rw [← hh.next_eq, next_ptr, next_ptr]
    exact load32_ptr_congr fun x h1 h2 => h x (by omega) (by omega) (by omega)
  · rw [← hh.magic_eq, magic_ptr, magic_ptr]
    exact load32_ptr_congr fun x h1 h2 => h x (by omega) (by omega) (by omega)
  · rw [← hh.allocated_eq, allocated_ptr, allocated_ptr, h (pos + 12) (by omega) (by omega) (by omega)]
  · rw [← hh.size_eq, size_ptr, size_ptr]
    congr 1
    exact load32_ptr_congr fun x h1 h2 => h x (by omega) (by omega) (by omega)

@[simp] theorem inHeaders_nil (pos : ℕ) (w : U32) : ¬ InHeaders pos [] w := by
  rintro ⟨x, hx, -⟩
  simp at hx

theorem inHeaders_cons {pos : ℕ} {b : Block} {bs : List Block} {w : U32} :
    InHeaders pos (b :: bs) w ↔
      (∃ k < sizeofMemoryChunk, w = ptr (pos + k)) ∨ InHeaders (pos + b.span) bs w := by
  simp [InHeaders]

/-- Linked blocks depend on the bytes of their headers. -/
theorem Linked.congr_headers {m m' : Ram} {before after : U32} {pos : ℕ} {bs : List Block}
    (hb : Linked m before pos bs after) (h : ∀ w, InHeaders pos bs w → m'.byte w = m.byte w) :
    Linked m' before pos bs after := by
  induction bs generalizing before pos with
  | nil => trivial
  | cons b bs ih =>
    rw [linked_cons] at hb ⊢
    refine ⟨hb.1.congr fun x h1 h2 => h _ (inHeaders_cons.mpr (Or.inl ⟨x - pos, ?_, ?_⟩)),
      ih hb.2 fun w hw => h w (inHeaders_cons.mpr (Or.inr hw))⟩
    · rw [sizeofMemoryChunk]
      omega
    · rw [show pos + (x - pos) = x by omega]

theorem inHeaders_append {pos : ℕ} {xs ys : List Block} {w : U32} :
    InHeaders pos (xs ++ ys) w ↔ InHeaders pos xs w ∨ InHeaders (pos + extent xs) ys w := by
  induction xs generalizing pos with
  | nil => simp
  | cons b xs ih =>
    rw [List.cons_append, inHeaders_cons, inHeaders_cons, ih, extent_cons, Nat.add_assoc, or_assoc]

theorem Block.span_flag (c : Block) (a : Bool) : Block.span { c with allocated := a } = c.span := rfl

theorem Block.span_join (b c : Block) : (join b c).span = b.span + c.span := by
  simp only [join, Block.span, sizeofMemoryChunk]
  omega

/-- A flag does not move headers. -/
theorem inHeaders_flag {pos : ℕ} {pre post : List Block} {c : Block} {a : Bool} {w : U32} :
    InHeaders pos (pre ++ { c with allocated := a } :: post) w ↔ InHeaders pos (pre ++ c :: post) w := by
  simp only [inHeaders_append, inHeaders_cons, Block.span_flag]

/-- A merge removes a header. -/
theorem InHeaders.of_join {pos : ℕ} {pre post : List Block} {b c : Block} {w : U32}
    (h : InHeaders pos (pre ++ join b c :: post) w) : InHeaders pos (pre ++ b :: c :: post) w := by
  simp only [inHeaders_append, inHeaders_cons, Block.span_join, ← Nat.add_assoc] at h ⊢
  exact h.imp_right fun h => h.imp_right Or.inr

/-- The addresses in the header of a block on the list. -/
theorem inHeaders_of_mem {pos x : ℕ} {pre post : List Block} {b : Block}
    (h1 : pos + extent pre ≤ x) (h2 : x < pos + extent pre + 20) :
    InHeaders pos (pre ++ b :: post) (ptr x) :=
  ⟨_, Tiling.mem_positions_split pre post b, x - (pos + extent pre), by rw [sizeofMemoryChunk]; omega,
    by change _ = ptr (pos + extent pre + _); congr 1; omega⟩

/-- There is room for every header. -/
theorem mul_length_le_extent (bs : List Block) : 20 * bs.length ≤ extent bs := by
  induction bs with
  | nil => simp
  | cons b bs ih =>
    have := b.le_span
    rw [extent_cons, List.length_cons]
    omega

end Pros
