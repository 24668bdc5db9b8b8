import Pros.MM.Proofs.HeapLayoutProofs

/-!
# What the pieces of `malloc` and `free` do to memory

For each piece: the fields it sets, the bytes it leaves alone, and the addresses it stores to. From
these, a split and the two merges take linked blocks to linked blocks (`linked_split`,
`linked_mergePrev`, `linked_mergeNext`).
-/

namespace Pros

open MemoryChunk Heap

/-! ## The header of the remainder -/

section WriteTemp

variable {m : Ram} {r : ℕ} {n : U32}

/-- Where the header of the remainder goes. -/
theorem temp_eq (r : ℕ) (n : U32) : ptr r + 20 + n = ptr (r + 20 + n.toNat) := by
  rw [ptr_add_ofNat, ptr_add_toNat]

/-- The fields of the header of the remainder. -/
theorem writeTemp_fields (hn : n.toNat + 41 ≤ 2 ^ 32) :
    let m' := writeTemp m (ptr r) n
    let t := ptr (r + 20 + n.toNat)
    next m' t = next m (ptr r) ∧ prev m' t = ptr r ∧ magic m' t = HEAP_MAGIC ∧
      allocated m' t = false ∧ size m' t = size m (ptr r) - 20 - n := by
  simp only [writeTemp, temp_eq, next_ptr, prev_ptr, magic_ptr, allocated_ptr, size_ptr, setNext_ptr,
    setPrev_ptr, setMagic_ptr, setAllocated_ptr, setSize_ptr, sizeofMemoryChunk]
  refine ⟨?_, ?_, ?_, ?_, ?_⟩
  all_goals
    simp (disch := omega) only [load32_store32_ptr_of_ne, load32_store8_ptr_of_ne,
      load32_memset_ptr_of_ne, byte_store32_ptr_of_ne, Memory.load32_store32, Memory.byte_store8_same]
  rfl

/-- Writing the header of the remainder changes its 20 bytes and the byte after it. -/
theorem byte_writeTemp {x : ℕ} (hne : x < r + 20 + n.toNat ∨ r + 40 + n.toNat < x)
    (h1 : x < r + 2 ^ 32) (h2 : r + 40 + n.toNat < x + 2 ^ 32) :
    (writeTemp m (ptr r) n).byte (ptr x) = m.byte (ptr x) := by
  simp only [writeTemp, temp_eq, next_ptr, size_ptr, setNext_ptr,
    setPrev_ptr, setMagic_ptr, setAllocated_ptr, setSize_ptr, sizeofMemoryChunk]
  simp (disch := omega) only [byte_store32_ptr_of_ne, byte_store8_ptr_of_ne, byte_memset_ptr_of_ne]

/-- The byte after the header of the remainder is cleared. -/
theorem byte_writeTemp_after (m : Ram) (r : ℕ) (n : U32) :
    (writeTemp m (ptr r) n).byte (ptr (r + 40 + n.toNat)) = 0 := by
  simp only [writeTemp, temp_eq, next_ptr, size_ptr, setNext_ptr,
    setPrev_ptr, setMagic_ptr, setAllocated_ptr, setSize_ptr, sizeofMemoryChunk]
  simp (disch := omega) only [byte_store32_ptr_of_ne, byte_store8_ptr_of_ne, byte_memset_ptr]

/-- The addresses written for the header of the remainder. -/
theorem written_writeTemp {w : U32} (hw : w ∈ (writeTemp m (ptr r) n).written) :
    w ∈ m.written ∨ ∃ x, r + 20 + n.toNat ≤ x ∧ x ≤ r + 40 + n.toNat ∧ w = ptr x := by
  simp only [writeTemp, temp_eq, setNext_ptr, setPrev_ptr, setMagic_ptr, setAllocated_ptr, setSize_ptr,
    sizeofMemoryChunk, mem_written_store32_ptr, Memory.written_store8, List.mem_cons,
    mem_written_memset, ptr_add_cast] at hw
  rcases hw with ⟨x, h1, h2, rfl⟩ | ⟨x, h1, h2, rfl⟩ | rfl | ⟨x, h1, h2, rfl⟩ | ⟨x, h1, h2, rfl⟩ |
    ⟨x, h1, h2, rfl⟩ | hw
  · exact Or.inr ⟨x, by omega, by omega, rfl⟩
  · exact Or.inr ⟨x, by omega, by omega, rfl⟩
  · exact Or.inr ⟨r + 20 + n.toNat + 12, by omega, by omega, rfl⟩
  · exact Or.inr ⟨x, by omega, by omega, rfl⟩
  · exact Or.inr ⟨x, by omega, by omega, rfl⟩
  · exact Or.inr ⟨r + 20 + n.toNat + x, by omega, by omega, rfl⟩
  · exact Or.inl hw

end WriteTemp

/-! ## Back links -/

section BackLink

variable {m : Ram} {chunk p : U32} {q : ℕ}

theorem backLink_of_null (h : next m chunk = nullptr) : backLink m chunk p = m := by
  rw [backLink, if_neg (not_not_intro h)]

theorem backLink_of_ptr (h : next m chunk = ptr q) (hq : 0 < q) (hq' : q < 2 ^ 32) :
    backLink m chunk p = m.store32 (ptr (q + 4)) p := by
  rw [backLink, h, if_pos (ptr_ne_nullptr hq hq'), setPrev_ptr]

variable {before : U32} {post : List Block}

/-- A back link changes only the `prev` of the next chunk. -/
theorem byte_backLink (h : next m chunk = linkTo q post nullptr) (hq : 0 < q)
    (hfit : q + extent post ≤ 2 ^ 32) {x : ℕ} (hne : x < q + 4 ∨ q + 8 ≤ x) (hx : x < 2 ^ 32) :
    (backLink m chunk p).byte (ptr x) = m.byte (ptr x) := by
  cases post with
  | nil => rw [backLink_of_null h]
  | cons d post =>
    have := d.le_span
    rw [extent_cons] at hfit
    rw [backLink_of_ptr h hq (by omega)]
    exact byte_store32_ptr_of_ne (by omega) (by omega) (by omega)

/-- A back link makes `p` the predecessor of the blocks that `chunk` links to. -/
theorem linked_backLink (h : next m chunk = linkTo q post nullptr) (hq : 0 < q)
    (hfit : q + extent post ≤ 2 ^ 32) (hl : Linked m before q post nullptr) :
    Linked (backLink m chunk p) p q post nullptr := by
  cases post with
  | nil => trivial
  | cons d post =>
    have := d.le_span
    refine hl.relink (fun x h1 h2 h3 => byte_backLink h hq hfit (by omega) (by omega)) ?_
    rw [extent_cons] at hfit
    rw [backLink_of_ptr h hq (by omega), prev_ptr, Memory.load32_store32]

/-- A back link is stored in the header of the first of the blocks that `chunk` links to. -/
theorem written_backLink {w : U32} (h : next m chunk = linkTo q post nullptr) (hq : 0 < q)
    (hfit : q + extent post ≤ 2 ^ 32) (hw : w ∈ (backLink m chunk p).written) :
    w ∈ m.written ∨ ∃ d rest x, post = d :: rest ∧ q ≤ x ∧ x < q + 20 ∧ w = ptr x := by
  cases post with
  | nil => exact Or.inl (by rwa [backLink_of_null h] at hw)
  | cons d rest =>
    have := d.le_span
    rw [extent_cons] at hfit
    rw [backLink_of_ptr h hq (by omega), mem_written_store32_ptr] at hw
    rcases hw with ⟨x, h1, h2, rfl⟩ | hw
    · exact Or.inr ⟨d, rest, x, rfl, by omega, by omega, rfl⟩
    · exact Or.inl hw

end BackLink

/-! ## The chunk handed out -/

section TakeChunk

variable {m : Ram} {r : ℕ} {temp n : U32}

/-- The fields of the chunk handed out. -/
theorem takeChunk_fields :
    let m' := takeChunk m (ptr r) temp n
    next m' (ptr r) = temp ∧ prev m' (ptr r) = prev m (ptr r) ∧ magic m' (ptr r) = magic m (ptr r) ∧
      allocated m' (ptr r) = true ∧ size m' (ptr r) = n := by
  simp only [takeChunk, next_ptr, prev_ptr, magic_ptr, allocated_ptr, size_ptr, setNext_ptr,
    setAllocated_ptr, setSize_ptr]
  refine ⟨?_, ?_, ?_, ?_, ?_⟩
  all_goals
    simp (disch := omega) only [load32_store32_ptr_of_ne, load32_store8_ptr_of_ne,
      byte_store32_ptr_of_ne, Memory.load32_store32, Memory.byte_store8_same]
  rfl

theorem byte_takeChunk {x : ℕ} (hne : x < r ∨ r + 20 ≤ x) (h1 : x < r + 2 ^ 32)
    (h2 : r + 19 < x + 2 ^ 32) : (takeChunk m (ptr r) temp n).byte (ptr x) = m.byte (ptr x) := by
  simp only [takeChunk, setNext_ptr, setAllocated_ptr, setSize_ptr]
  simp (disch := omega) only [byte_store32_ptr_of_ne, byte_store8_ptr_of_ne]

theorem written_takeChunk {w : U32} (hw : w ∈ (takeChunk m (ptr r) temp n).written) :
    w ∈ m.written ∨ ∃ x, r ≤ x ∧ x < r + 20 ∧ w = ptr x := by
  simp only [takeChunk, setNext_ptr, setAllocated_ptr, setSize_ptr, mem_written_store32_ptr,
    Memory.written_store8, List.mem_cons] at hw
  rcases hw with ⟨x, h1, h2, rfl⟩ | rfl | ⟨x, h1, h2, rfl⟩ | hw
  · exact Or.inr ⟨x, by omega, by omega, rfl⟩
  · exact Or.inr ⟨r + 12, by omega, by omega, rfl⟩
  · exact Or.inr ⟨x, by omega, by omega, rfl⟩
  · exact Or.inl hw

end TakeChunk

/-! ## Splitting a chunk -/

/-- The memory after `Heap::malloc` has split the chunk `result`. -/
def splitMem (m : Ram) (result n : U32) : Ram :=
  takeChunk (backLink (writeTemp m result n) (result + 20 + n) (result + 20 + n)) result
    (result + 20 + n) n

section Split

variable {m m2 : Ram} {r : ℕ} {n : U32} {prv nxt : U32} {c : Block}

/-- The two headers of a split, over any memory that still has the header of the remainder. -/
theorem headers_split (hn : n.toNat + 41 ≤ 2 ^ 32) (hc : Header m r prv nxt c)
    (h : ∀ x, r ≤ x → x < r + 40 + n.toNat → m2.byte (ptr x) = (writeTemp m (ptr r) n).byte (ptr x)) :
    let m' := takeChunk m2 (ptr r) (ptr (r + 20 + n.toNat)) n
    Header m' r prv (ptr (r + 20 + n.toNat)) ⟨n.toNat, true⟩ ∧
      Header m' (r + 20 + n.toNat) (ptr r) nxt ⟨(size m (ptr r) - 20 - n).toNat, false⟩ := by
  intro m'
  have hlow : ∀ x, r ≤ x → x < r + 20 → m2.byte (ptr x) = m.byte (ptr x) := by
    intro x h1 h2
    rw [h x h1 (by omega), byte_writeTemp (by omega) (by omega) (by omega)]
  have hhigh : ∀ x, r + 20 + n.toNat ≤ x → x < r + 20 + n.toNat + 20 →
      m'.byte (ptr x) = (writeTemp m (ptr r) n).byte (ptr x) := by
    intro x h1 h2
    rw [byte_takeChunk (by omega) (by omega) (by omega), h x (by omega) (by omega)]
  obtain ⟨-, hprev, hmagic, -, -⟩ := fields_congr hlow
  obtain ⟨t1, t2, t3, t4, t5⟩ : next m' (ptr r) = ptr (r + 20 + n.toNat) ∧
      prev m' (ptr r) = prev m2 (ptr r) ∧ magic m' (ptr r) = magic m2 (ptr r) ∧
      allocated m' (ptr r) = true ∧ size m' (ptr r) = n := takeChunk_fields
  obtain ⟨w1, w2, w3, w4, w5⟩ := writeTemp_fields (m := m) (r := r) hn
  constructor
  · exact ⟨t1, t2.trans (hprev.trans hc.prev_eq), t3.trans (hmagic.trans hc.magic_eq), t4, by rw [t5]⟩
  · refine Header.congr ⟨?_, w2, w3, w4, by rw [w5]⟩ hhigh
    rw [w1, hc.next_eq]

end Split

/-- The size of the remainder, when the header fits. -/
theorem remainder_size {s n : U32} {k : ℕ} (hs : s.toNat = k) (h : n.toNat + 20 ≤ k) :
    (s - 20 - n).toNat = k - 20 - n.toNat := by
  have h20 : (20 : U32).toNat = 20 := rfl
  rw [BitVec.toNat_sub_of_le, BitVec.toNat_sub_of_le, h20, hs]
  · rw [BitVec.le_def, h20]; omega
  · rw [BitVec.le_def, BitVec.toNat_sub_of_le (by rw [BitVec.le_def, h20]; omega), h20]; omega

/-- A split takes linked blocks to linked blocks, provided the header of the remainder fits and the
    byte after it is not part of a non-zero link. -/
theorem linked_split {m : Ram} {start : ℕ} {pre post : List Block} {c : Block} {n : U32}
    (hl : Linked m nullptr start (pre ++ c :: post) nullptr) (hpos : 0 < start)
    (hfit : start + extent (pre ++ c :: post) ≤ 2 ^ 32) (hroom : n.toNat + 20 ≤ c.size)
    (hover : n.toNat + 20 = c.size → post ≠ [] → m.byte (ptr (start + extent pre + c.span)) = 0) :
    Linked (splitMem m (ptr (start + extent pre)) n) nullptr start (pre ++ (cut n.toNat c ++ post))
      nullptr := by
  rw [linked_append, linked_cons] at hl
  obtain ⟨hpre, hc, hpost⟩ := hl
  rw [linkTo_cons] at hpre
  set r := start + extent pre with hr
  rw [extent_append, extent_cons, Block.span_eq] at hfit
  rw [Block.span_eq] at hc hpost hover
  set q := r + (20 + c.size) with hq
  have hn : n.toNat + 41 ≤ 2 ^ 32 := by omega
  rw [splitMem, temp_eq]
  set t := r + 20 + n.toNat with ht
  set m1 := writeTemp m (ptr r) n with hm1
  set m2 := backLink m1 (ptr t) (ptr t) with hm2
  have hnext1 : next m1 (ptr t) = linkTo q post nullptr := by
    rw [← hc.next_eq]; exact (writeTemp_fields hn).1
  -- the back link is outside the block that is split
  have hlow : ∀ x, x < q → m2.byte (ptr x) = m1.byte (ptr x) := fun x h =>
    byte_backLink hnext1 (by omega) (by omega) (by omega) (by omega)
  obtain ⟨hr', ht'⟩ := headers_split hn hc fun x h1 h2 => hlow x (by omega)
  rw [remainder_size hc.size_eq hroom, ← ht] at ht'
  rw [cut, List.cons_append, List.cons_append, List.nil_append, linked_append, linked_cons,
    linked_cons, linkTo_cons, linkTo_cons, ← hr, Block.span_mk, Block.span_mk,
    show r + (20 + n.toNat) = t by omega, sizeofMemoryChunk,
    show t + (20 + (c.size - 20 - n.toNat)) = q by omega]
  refine ⟨?_, hr', ht', ?_⟩
  · refine Linked.congr hpre ?_
    intro x h1 h2
    rw [byte_takeChunk (by omega) (by omega) (by omega), hlow x (by omega), hm1,
      byte_writeTemp (by omega) (by omega) (by omega)]
  · have hpost1 : Linked m1 (ptr r) q post nullptr := by
      refine hpost.congr ?_
      intro x h1 h2
      by_cases hx : x = r + 40 + n.toNat
      · -- the byte that `memset` runs over
        have hne : post ≠ [] := by
          rintro rfl
          rw [extent_nil] at h2
          omega
        rw [hx, hm1, byte_writeTemp_after, show r + 40 + n.toNat = q by omega]
        exact (hover (by omega) hne).symm
      · rw [hm1, byte_writeTemp (by omega) (by omega) (by omega)]
    refine (linked_backLink hnext1 (by omega) (by omega) hpost1).congr ?_
    intro x h1 h2
    exact byte_takeChunk (by omega) (by omega) (by omega)

/-- A split stores to headers of the new list of blocks and to the byte after the new header. -/
theorem written_splitMem {m : Ram} {start : ℕ} {pre post : List Block} {c : Block} {n w : U32}
    (hc : Header m (start + extent pre) (lastOf nullptr start pre)
      (linkTo (start + extent pre + c.span) post nullptr) c) (hpos : 0 < start)
    (hfit : start + extent (pre ++ c :: post) ≤ 2 ^ 32) (hroom : n.toNat + 20 ≤ c.size)
    (hw : w ∈ (splitMem m (ptr (start + extent pre)) n).written) :
    w ∈ m.written ∨ InHeaders start (pre ++ (cut n.toNat c ++ post)) w ∨
      w = ptr (start + extent pre + 40 + n.toNat) := by
  rw [extent_append, extent_cons, Block.span_eq] at hfit
  rw [splitMem, temp_eq] at hw
  have hnext1 := (writeTemp_fields (m := m) (r := start + extent pre) (n := n) (by omega)).1.trans
    hc.next_eq
  have hcut : pre ++ (cut n.toNat c ++ post) =
      (pre ++ [⟨n.toNat, true⟩]) ++ ⟨c.size - sizeofMemoryChunk - n.toNat, false⟩ :: post := by
    simp [cut]
  rcases written_takeChunk hw with hw | ⟨x, h1, h2, rfl⟩
  · rw [Block.span_eq] at hnext1
    rcases written_backLink hnext1 (by omega) (by omega) hw with hw | ⟨d, rest, x, rfl, h1, h2, rfl⟩
    · rcases written_writeTemp hw with hw | ⟨x, h1, h2, rfl⟩
      · exact Or.inl hw
      · rcases Nat.lt_or_ge x (start + extent pre + 40 + n.toNat) with hx | hx
        · refine Or.inr (Or.inl ?_)
          rw [hcut]
          refine inHeaders_of_mem ?_ ?_ <;>
            rw [extent_append, extent_cons, extent_nil, Block.span_mk] <;> omega
        · exact Or.inr (Or.inr (by rw [show x = start + extent pre + 40 + n.toNat by omega]))
    · refine Or.inr (Or.inl ?_)
      rw [← List.append_assoc]
      refine inHeaders_of_mem ?_ ?_ <;>
        simp only [cut, extent_append, extent_cons, extent_nil, Block.span_mk, sizeofMemoryChunk] <;> omega
  · exact Or.inr (Or.inl (inHeaders_of_mem h1 h2))

/-! ## Merging neighbours -/

/-- The size of two neighbours made into one. -/
theorem join_size {s s' : U32} {k k' : ℕ} (hs : s.toNat = k) (hs' : s'.toNat = k')
    (h : k + (k' + 20) < 2 ^ 32) : (s + (s' + 20)).toNat = k + (k' + 20) := by
  have h20 : (20 : U32).toNat = 20 := rfl
  rw [BitVec.toNat_add_of_lt, BitVec.toNat_add_of_lt, h20, hs, hs']
  · rw [h20]; omega
  · rw [BitVec.toNat_add_of_lt (by rw [h20]; omega), h20]; omega

/-- Without an allocated chunk before it, a chunk is not merged with the chunk before it. -/
theorem mergePrev_of_free {m : Ram} {chunk : U32}
    (h : prev m chunk = nullptr ∨ allocated m (prev m chunk) = false) :
    mergePrev m chunk = (m, chunk) := by
  unfold mergePrev
  rcases h with h | h <;> simp [h]

/-- A merge with the chunk before, which is allocated, takes linked blocks to linked blocks. -/
theorem linked_mergePrev {m : Ram} {start : ℕ} {pre post : List Block} {b c : Block}
    (hl : Linked m nullptr start (pre ++ b :: c :: post) nullptr) (hpos : 0 < start)
    (hfit : start + extent (pre ++ b :: c :: post) ≤ 2 ^ 32) (hb : b.allocated = true) :
    ∃ m', mergePrev m (ptr (start + extent pre + b.span)) = (m', ptr (start + extent pre)) ∧
      Linked m' nullptr start (pre ++ join b c :: post) nullptr ∧
      ∀ w ∈ m'.written, w ∈ m.written ∨ InHeaders start (pre ++ b :: c :: post) w := by
  rw [linked_append, linked_cons, linked_cons] at hl
  obtain ⟨hpre, hhb, hhc, hpost⟩ := hl
  rw [linkTo_cons] at hpre hhb
  rw [extent_append, extent_cons, extent_cons] at hfit
  have hble := b.le_span
  have hcle := c.le_span
  have hbspan := b.span_eq
  have hcspan := c.span_eq
  set r := start + extent pre with hr
  set k := r + b.span with hk
  set q := k + c.span with hq
  -- The links and the size of the joint block are stored to its first header.
  set m1 := setNext m (ptr r) (linkTo q post nullptr) with hm1
  have hframe1 : ∀ x, start ≤ x → x < 2 ^ 32 → (x < r ∨ r + 20 ≤ x) →
      m1.byte (ptr x) = m.byte (ptr x) := by
    intro x h1 h2 h3
    rw [hm1, setNext_ptr, byte_store32_ptr_of_ne (by omega) (by omega) (by omega)]
  have hb1 := hhb.store_next (linkTo q post nullptr)
  have hc1 : Header m1 k (ptr r) (linkTo q post nullptr) c :=
    hhc.congr fun x h1 h2 => hframe1 x (by omega) (by omega) (by omega)
  set m2 := setSize m1 (ptr r) (size m1 (ptr r) + (size m1 (ptr k) + 20)) with hm2
  have hframe2 : ∀ x, start ≤ x → x < 2 ^ 32 → (x < r ∨ r + 20 ≤ x) →
      m2.byte (ptr x) = m.byte (ptr x) := by
    intro x h1 h2 h3
    rw [hm2, setSize_ptr, byte_store32_ptr_of_ne (by omega) (by omega) (by omega), hframe1 x h1 h2 h3]
  have hb2 := hb1.store_size (size m1 (ptr r) + (size m1 (ptr k) + 20))
  rw [join_size hb1.size_eq hc1.size_eq (by omega)] at hb2
  have hc2 : Header m2 k (ptr r) (linkTo q post nullptr) c :=
    hhc.congr fun x h1 h2 => hframe2 x (by omega) (by omega) (by omega)
  have hlow : ∀ x, x < q → (backLink m2 (ptr k) (ptr r)).byte (ptr x) = m2.byte (ptr x) :=
    fun x h => byte_backLink hc2.next_eq (by omega) (by omega) (by omega) (by omega)
  refine ⟨backLink m2 (ptr k) (ptr r), ?_, ?_, fun w hw => ?_⟩
  · have hnull : ptr r ≠ nullptr := ptr_ne_nullptr (by omega) (by omega)
    have hcond : (decide (ptr r ≠ nullptr) && allocated m (ptr r)) = true := by
      simp [hnull, hhb.allocated_eq, hb]
    have hc3 := hc2.congr fun x h1 h2 => hlow x (by omega)
    simp only [mergePrev, hhc.prev_eq, hcond, if_true, hhc.next_eq]
    rw [← hm1, hc1.prev_eq, ← hm2, hc2.prev_eq, hc3.prev_eq]
  · have hpost2 : Linked m2 (ptr k) q post nullptr :=
      hpost.congr fun x h1 h2 => hframe2 x (by omega) (by omega) (by omega)
    have hpre2 : Linked m2 nullptr start pre (ptr r) :=
      hpre.congr fun x h1 h2 => hframe2 x (by omega) (by omega) (by omega)
    rw [linked_append, linked_cons, linkTo_cons, Block.span_join, ← hr,
      show r + (b.span + c.span) = q by omega]
    exact ⟨hpre2.congr fun x h1 h2 => hlow x (by omega), hb2.congr fun x h1 h2 => hlow x (by omega),
      linked_backLink hc2.next_eq (by omega) (by omega) hpost2⟩
  · rcases written_backLink hc2.next_eq (by omega) (by omega) hw with
      hw | ⟨d, rest, x, rfl, h1, h2, rfl⟩
    · rw [hm2, setSize_ptr, mem_written_store32_ptr, hm1, setNext_ptr, mem_written_store32_ptr] at hw
      rcases hw with ⟨x, h1, h2, rfl⟩ | ⟨x, h1, h2, rfl⟩ | hw
      · exact Or.inr (inHeaders_of_mem (by omega) (by omega))
      · exact Or.inr (inHeaders_of_mem (by omega) (by omega))
      · exact Or.inl hw
    · refine Or.inr ?_
      rw [show pre ++ b :: c :: d :: rest = (pre ++ [b, c]) ++ d :: rest by simp]
      refine inHeaders_of_mem ?_ ?_ <;> simp only [extent_append, extent_cons, extent_nil] <;> omega

/-- Without a free chunk after it, a chunk is not merged with the chunk after it. -/
theorem mergeNext_of_allocated {m : Ram} {chunk : U32}
    (h : next m chunk = nullptr ∨ allocated m (next m chunk) = true) : mergeNext m chunk = m := by
  unfold mergeNext
  rcases h with h | h <;> simp [h]

/-- A merge with a free chunk makes one block of the two, and sets the back link of the blocks behind them
    to the chunk before. -/
theorem mergeNext_free {m : Ram} {start : ℕ} {pre post : List Block} {c d : Block}
    (hl : Linked m nullptr start (pre ++ c :: d :: post) nullptr) (hpos : 0 < start)
    (hfit : start + extent (pre ++ c :: d :: post) ≤ 2 ^ 32) (hd : d.allocated = false) :
    let m' := mergeNext m (ptr (start + extent pre))
    let q := start + extent pre + c.span + d.span
    Linked m' nullptr start pre (ptr (start + extent pre)) ∧
      Header m' (start + extent pre) (lastOf nullptr start pre) (linkTo q post nullptr) (join c d) ∧
      Linked m' (lastOf nullptr start pre) q post nullptr ∧
      ∀ w ∈ m'.written, w ∈ m.written ∨ InHeaders start (pre ++ c :: d :: post) w := by
  intro m' q
  rw [linked_append, linked_cons, linked_cons, linkTo_cons, linkTo_cons] at hl
  obtain ⟨hpre, hhc, hhd, hpost⟩ := hl
  rw [extent_append, extent_cons, extent_cons] at hfit
  have hcspan := c.span_eq
  have hdspan := d.span_eq
  set k := start + extent pre with hk
  set t := k + c.span with ht
  have hq : q = t + d.span := rfl
  -- The size and the link of the joint block are stored to its header.
  set m1 := setSize m (ptr k) (size m (ptr k) + (size m (ptr t) + 20)) with hm1
  have hc1 := hhc.store_size (size m (ptr k) + (size m (ptr t) + 20))
  rw [join_size hhc.size_eq hhd.size_eq (by omega)] at hc1
  have hd1 : Header m1 t (ptr k) (linkTo q post nullptr) d := hhd.congr fun x h1 h2 => by
    rw [hm1, setSize_ptr, byte_store32_ptr_of_ne (by omega) (by omega) (by omega)]
  set m2 := setNext m1 (ptr k) (linkTo q post nullptr) with hm2
  have hc2 : Header m2 k (lastOf nullptr start pre) (linkTo q post nullptr) (join c d) :=
    hc1.store_next (linkTo q post nullptr)
  have hframe : ∀ x, start ≤ x → x < 2 ^ 32 → (x < k ∨ k + 20 ≤ x) →
      m2.byte (ptr x) = m.byte (ptr x) := by
    intro x h1 h2 h3
    rw [hm2, setNext_ptr, byte_store32_ptr_of_ne (by omega) (by omega) (by omega), hm1, setSize_ptr,
      byte_store32_ptr_of_ne (by omega) (by omega) (by omega)]
  -- What is behind the two blocks gets the chunk before them as its predecessor.
  have hcond : (decide (ptr t ≠ nullptr) && !allocated m (ptr t)) = true := by
    simp [ptr_ne_nullptr (by omega : 0 < t) (by omega), hhd.allocated_eq, hd]
  have hmerge : mergeNext m (ptr k) = backLink m2 (ptr k) (lastOf nullptr start pre) := by
    simp only [mergeNext, hhc.next_eq, hcond, if_true]
    rw [← hm1, hc1.next_eq, hd1.next_eq, ← hm2, hc2.prev_eq]
  have hmem : m' = backLink m2 (ptr k) (lastOf nullptr start pre) := hmerge
  have hlow : ∀ x, x < q → m'.byte (ptr x) = m2.byte (ptr x) := by
    intro x hx
    rw [hmem, byte_backLink hc2.next_eq (by omega) (by omega) (by omega) (by omega)]
  refine ⟨hpre.congr fun x h1 h2 => ?_, hc2.congr fun x h1 h2 => hlow x (by omega), ?_, fun w hw => ?_⟩
  · rw [hlow x (by omega), hframe x (by omega) (by omega) (by omega)]
  · rw [hmem]
    refine linked_backLink hc2.next_eq (by omega) (by omega) (hpost.congr fun x h1 h2 => ?_)
    exact hframe x (by omega) (by omega) (by omega)
  · rw [hmem] at hw
    rcases written_backLink hc2.next_eq (by omega) (by omega) hw with hw | ⟨e, rest, x, rfl, h1, h2, rfl⟩
    · rw [hm2, setNext_ptr, mem_written_store32_ptr, hm1, setSize_ptr, mem_written_store32_ptr] at hw
      rcases hw with ⟨x, h1, h2, rfl⟩ | ⟨x, h1, h2, rfl⟩ | hw
      · exact Or.inr (inHeaders_of_mem (by omega) (by omega))
      · exact Or.inr (inHeaders_of_mem (by omega) (by omega))
      · exact Or.inl hw
    · refine Or.inr ?_
      rw [show pre ++ c :: d :: e :: rest = (pre ++ [c, d]) ++ e :: rest by simp]
      refine inHeaders_of_mem ?_ ?_ <;> simp only [extent_append, extent_cons, extent_nil] <;> omega

/-- A merge with the last chunk, which is free, takes linked blocks to linked blocks. -/
theorem linked_mergeNext {m : Ram} {start : ℕ} {pre : List Block} {c d : Block}
    (hl : Linked m nullptr start (pre ++ [c, d]) nullptr) (hpos : 0 < start)
    (hfit : start + extent (pre ++ [c, d]) ≤ 2 ^ 32) (hd : d.allocated = false) :
    Linked (mergeNext m (ptr (start + extent pre))) nullptr start (pre ++ [join c d]) nullptr ∧
      ∀ w ∈ (mergeNext m (ptr (start + extent pre))).written,
        w ∈ m.written ∨ InHeaders start (pre ++ [c, d]) w := by
  obtain ⟨hpre, hc, -, hw⟩ := mergeNext_free hl hpos hfit hd
  exact ⟨linked_append.mpr ⟨hpre, hc, trivial⟩, hw⟩

/-- Marking a chunk free changes only the flag of its block. -/
theorem linked_setAllocated {m : Ram} {start : ℕ} {pre post : List Block} {c : Block}
    (hl : Linked m nullptr start (pre ++ c :: post) nullptr)
    (hfit : start + extent (pre ++ c :: post) ≤ 2 ^ 32) :
    Linked (setAllocated m (ptr (start + extent pre)) false) nullptr start
      (pre ++ { c with allocated := false } :: post) nullptr := by
  rw [linked_append, linked_cons] at hl
  obtain ⟨hpre, hhc, hpost⟩ := hl
  rw [extent_append, extent_cons] at hfit
  have hcspan := c.span_eq
  set r := start + extent pre with hr
  have hframe : ∀ x, start ≤ x → x < 2 ^ 32 → (x < r ∨ r + 20 ≤ x) →
      (setAllocated m (ptr r) false).byte (ptr x) = m.byte (ptr x) := by
    intro x h1 h2 h3
    rw [setAllocated_ptr, byte_store8_ptr_of_ne (by omega) (by omega) (by omega)]
  rw [linked_append, linked_cons, linkTo_cons, ← hr, Block.span_flag]
  refine ⟨hpre.congr fun x h1 h2 => ?_, hhc.store_allocated false, hpost.congr fun x h1 h2 => ?_⟩
  · exact hframe x (by omega) (by omega) (by omega)
  · exact hframe x (by omega) (by omega) (by omega)

/-! ## Releasing a chunk -/

/-- The last merge of `free`, on linked blocks: the chunk takes in a free chunk after it, provided that
    one is the last. -/
theorem linked_mergeRight {m : Ram} {start : ℕ} {pre post : List Block} {c : Block}
    (hl : Linked m nullptr start (pre ++ c :: post) nullptr) (hpos : 0 < start)
    (hfit : start + extent (pre ++ c :: post) ≤ 2 ^ 32)
    (hlast : ∀ d rest, post = d :: rest → d.allocated = true ∨ rest = []) :
    Linked (mergeNext m (ptr (start + extent pre))) nullptr start (pre ++ mergeRight c post) nullptr ∧
      ∀ w ∈ (mergeNext m (ptr (start + extent pre))).written,
        w ∈ m.written ∨ InHeaders start (pre ++ c :: post) w := by
  have hhc := (linked_cons.mp (linked_append.mp hl).2).1
  cases post with
  | nil =>
    rw [mergeNext_of_allocated (Or.inl hhc.next_eq)]
    exact ⟨hl, fun _ => Or.inl⟩
  | cons d rest =>
    have hhd := (linked_cons.mp (linked_cons.mp (linked_append.mp hl).2).2).1
    rw [mergeRight]
    split_ifs with hd
    · rw [mergeNext_of_allocated (Or.inr _)]
      · exact ⟨hl, fun _ => Or.inl⟩
      · rw [hhc.next_eq, linkTo_cons, hhd.allocated_eq, hd]
    · obtain rfl := (hlast d rest rfl).resolve_left hd
      exact linked_mergeNext hl hpos hfit (by simpa using hd)

/-- Up to its last merge, `free` leads to linked blocks: the chunk is marked free, and a chunk before it
    that is handed out has swallowed it. -/
theorem free_eq_mergeNext {h : Heap} {start : ℕ} {pre post : List Block} {c : Block}
    (hl : Linked h.mem nullptr start (pre ++ c :: post) nullptr) (hpos : 0 < start)
    (hfit : start + extent (pre ++ c :: post) ≤ 2 ^ 32) :
    ∃ m pre' c', (h.free (ptr (start + extent pre + 20))).mem = mergeNext m (ptr (start + extent pre')) ∧
      Linked m nullptr start (pre' ++ c' :: post) nullptr ∧
      extent (pre' ++ c' :: post) = extent (pre ++ c :: post) ∧
      Released c post pre (pre' ++ mergeRight c' post) ∧
      (∀ w ∈ m.written, w ∈ h.mem.written ∨ InHeaders start (pre ++ c :: post) w) ∧
      ∀ w, InHeaders start (pre' ++ c' :: post) w → InHeaders start (pre ++ c :: post) w := by
  have hchunk : ptr (start + extent pre + 20) - 20 = ptr (start + extent pre) := by
    rw [← ptr_add_ofNat, BitVec.add_sub_cancel]
  have hl0 := linked_setAllocated hl hfit
  set m0 := setAllocated h.mem (ptr (start + extent pre)) false with hm0
  have hhc := (linked_cons.mp (linked_append.mp hl0).2).1
  have hw0 : ∀ w ∈ m0.written, w ∈ h.mem.written ∨ InHeaders start (pre ++ c :: post) w := by
    intro w hw
    rw [hm0, setAllocated_ptr, Memory.written_store8, List.mem_cons] at hw
    rcases hw with rfl | hw
    · exact Or.inr (inHeaders_of_mem (by omega) (by omega))
    · exact Or.inl hw
  simp only [Heap.free, hchunk, ← hm0]
  have hcases : (mergePrev m0 (ptr (start + extent pre)) = (m0, ptr (start + extent pre)) ∧
      ∀ b ∈ pre.getLast?, b.allocated = false) ∨ ∃ pre' b, pre = pre' ++ [b] ∧ b.allocated = true := by
    rcases List.eq_nil_or_concat' pre with rfl | ⟨pre, b, rfl⟩
    · exact Or.inl ⟨mergePrev_of_free (Or.inl hhc.prev_eq), by simp⟩
    cases hba : b.allocated with
    | true => exact Or.inr ⟨pre, b, rfl, hba⟩
    | false =>
      rw [List.append_assoc, List.singleton_append] at hl0
      have hhb := (linked_cons.mp (linked_append.mp hl0).2).1
      rw [lastOf_append, lastOf_cons, lastOf_nil] at hhc
      exact Or.inl ⟨mergePrev_of_free (Or.inr (by rw [hhc.prev_eq, hhb.allocated_eq, hba])), by simp [hba]⟩
  rcases hcases with ⟨hm, hb⟩ | ⟨pre, b, rfl, hba⟩
  · exact ⟨m0, pre, { c with allocated := false }, by rw [hm], hl0,
      by simp only [extent_append, extent_cons, Block.span_flag], .kept hb, hw0, fun w => inHeaders_flag.mp⟩
  · rw [List.append_assoc, List.singleton_append] at hl0
    simp only [extent_append, extent_cons, extent_nil] at hfit
    obtain ⟨m', hm', hl', hw'⟩ := linked_mergePrev hl0 hpos
      (by simp only [extent_append, extent_cons, Block.span_flag]; omega) hba
    have hheaders : ∀ w, InHeaders start (pre ++ b :: { c with allocated := false } :: post) w →
        InHeaders start (pre ++ [b] ++ c :: post) w := by
      intro w hw
      rw [← List.singleton_append, ← List.append_assoc] at hw
      exact inHeaders_flag.mp hw
    refine ⟨m', pre, join b c, ?_, hl', ?_, .swallowed hba, fun w hw => ?_, fun w hw => ?_⟩
    · rw [extent_append, extent_cons, extent_nil, Nat.add_zero, ← Nat.add_assoc, hm']
    · simp only [extent_append, extent_cons, extent_nil, Block.span_join]
      omega
    · exact (hw' w hw).elim (hw0 w) fun hw => Or.inr (hheaders w hw)
    · exact hheaders w (InHeaders.of_join (c := { c with allocated := false }) hw)

/-- `free` of the payload of a block takes linked blocks to linked blocks, unless it merges with a next
    chunk that has a successor. -/
theorem linked_free {h : Heap} {start : ℕ} {pre post : List Block} {c : Block}
    (hl : Linked h.mem nullptr start (pre ++ c :: post) nullptr) (hpos : 0 < start)
    (hfit : start + extent (pre ++ c :: post) ≤ 2 ^ 32)
    (hlast : ∀ d rest, post = d :: rest → d.allocated = true ∨ rest = []) :
    ∃ res, Released c post pre res ∧
      Linked (h.free (ptr (start + extent pre + 20))).mem nullptr start res nullptr ∧
      ∀ w ∈ (h.free (ptr (start + extent pre + 20))).mem.written,
        w ∈ h.mem.written ∨ InHeaders start (pre ++ c :: post) w := by
  obtain ⟨m, pre', c', hm, hl', hextent, hrel, hw, hheaders⟩ := free_eq_mergeNext hl hpos hfit
  obtain ⟨hl1, hw1⟩ := linked_mergeRight hl' hpos (by rw [hextent]; exact hfit) hlast
  rw [← hm] at hl1 hw1
  exact ⟨_, hrel, hl1, fun w hmw => (hw1 w hmw).elim (hw w) fun hin => Or.inr (hheaders w hin)⟩

end Pros
