import Pros.MM.HeapClient
import Pros.MM.Proofs.HeapOpsProofs

/-!
# `malloc` and `free` on a heap of linked blocks

The calls of the allocator against the list of its blocks: the constructor makes one free block
(`represents_init`), `malloc` is rejected or places the request in the first block that fits
(`malloc_cases`), and both calls lead to linked blocks again under the conditions of `HeapClient`.
-/

namespace Pros

open MemoryChunk Heap

/-! ## The search -/

/-- A chunk found by the search is the first one that fits. -/
theorem firstFit_of_search {m : Ram} {n c d : U32} {fuel : ℕ} (h : search m n fuel c = some d)
    (hd : d ≠ nullptr) : FirstFit m n c d := by
  induction fuel generalizing c with
  | zero => simp [search] at h
  | succ fuel ih =>
    rw [search] at h
    split_ifs at h with hc hfit
    · exact absurd (Option.some.inj h).symm hd
    · obtain rfl := Option.some.inj h
      simp only [Bool.and_eq_true, decide_eq_true_eq, Bool.not_eq_true'] at hfit
      exact .here hc hfit.1 hfit.2
    · simp only [Bool.and_eq_true, decide_eq_true_eq, Bool.not_eq_true'] at hfit
      exact .later hc hfit (ih h)

/-- The test of the search on a chunk. -/
theorem Header.fits_iff {m : Ram} {pos : ℕ} {prv nxt n : U32} {b : Block} (h : Header m pos prv nxt b) :
    (decide (size m (ptr pos) > n) && !allocated m (ptr pos)) = true ↔ b.Fits n.toNat := by
  simp only [h.allocated_eq, gt_iff_lt, BitVec.lt_def, h.size_eq, Block.Fits, Bool.and_eq_true,
    decide_eq_true_eq, Bool.not_eq_true']

/-- The search goes past linked blocks that do not fit. -/
theorem search_skip {m : Ram} {n before after : U32} {pos fuel : ℕ} {bs : List Block}
    (hl : Linked m before pos bs after) (hpos : 0 < pos) (hfit : pos + extent bs ≤ 2 ^ 32)
    (hno : ∀ b ∈ bs, ¬ b.Fits n.toNat) :
    search m n (fuel + bs.length) (linkTo pos bs after) = search m n fuel after := by
  induction bs generalizing before pos with
  | nil => rfl
  | cons b bs ih =>
    obtain ⟨hh, hbs⟩ := hl
    have hspan := b.le_span
    rw [extent_cons] at hfit
    rw [linkTo_cons, List.length_cons, ← Nat.add_assoc, search,
      if_neg (ptr_ne_nullptr hpos (by omega)), if_neg, hh.next_eq]
    · exact ih hbs (by omega) (by omega) fun x hx => hno x (List.mem_cons_of_mem _ hx)
    · rw [hh.fits_iff]
      exact hno b List.mem_cons_self

/-- The search over linked blocks finds the first block that fits, or null. -/
theorem search_linked {m : Ram} {n before : U32} {pos fuel : ℕ} {bs : List Block}
    (hl : Linked m before pos bs nullptr) (hpos : 0 < pos) (hfit : pos + extent bs ≤ 2 ^ 32)
    (hfuel : bs.length < fuel) :
    (search m n fuel (linkTo pos bs nullptr) = some nullptr ∧ ∀ b ∈ bs, ¬ b.Fits n.toNat) ∨
      ∃ pre c post, bs = pre ++ c :: post ∧ (∀ b ∈ pre, ¬ b.Fits n.toNat) ∧ c.Fits n.toNat ∧
        search m n fuel (linkTo pos bs nullptr) = some (ptr (pos + extent pre)) := by
  induction bs generalizing before pos fuel with
  | nil =>
    obtain ⟨fuel, rfl⟩ : ∃ k, fuel = k + 1 := ⟨fuel - 1, by simp at hfuel; omega⟩
    exact Or.inl ⟨by simp [search], by simp⟩
  | cons b bs ih =>
    obtain ⟨fuel, rfl⟩ : ∃ k, fuel = k + 1 := ⟨fuel - 1, by simp at hfuel; omega⟩
    obtain ⟨hh, hbs⟩ := hl
    have hspan := b.le_span
    rw [extent_cons] at hfit
    have hne : ptr pos ≠ nullptr := ptr_ne_nullptr hpos (by omega)
    rw [linkTo_cons, search, if_neg hne, hh.next_eq]
    by_cases hb : b.Fits n.toNat
    · exact Or.inr ⟨[], b, bs, rfl, by simp, hb, by rw [if_pos (hh.fits_iff.mpr hb)]; simp⟩
    · rw [if_neg (fun h => hb (hh.fits_iff.mp h))]
      rcases ih hbs (by omega) (by omega) (by simpa using hfuel) with ⟨h1, h2⟩ | ⟨pre, c, post, rfl, h1, h2, h3⟩
      · refine Or.inl ⟨h1, fun x hx => ?_⟩
        rcases List.mem_cons.mp hx with rfl | hx
        · exact hb
        · exact h2 x hx
      · refine Or.inr ⟨b :: pre, c, post, rfl, fun x hx => ?_, h2, ?_⟩
        · rcases List.mem_cons.mp hx with rfl | hx
          · exact hb
          · exact h1 x hx
        · rw [h3, extent_cons, Nat.add_assoc]

/-! ## The constructor -/

/-- The constructor makes the arena one free block. -/
theorem represents_init {mem : Ram} {start size : U32} (hsize : 20 ≤ size.toNat)
    (hpos : start ≠ nullptr) (hfit : start.toNat + size.toNat ≤ 2 ^ 32) :
    Represents (Heap.init mem start size) start.toNat [⟨size.toNat - 20, false⟩] := by
  have h0 : 0 < start.toNat := by
    rcases Nat.eq_zero_or_pos start.toNat with h | h
    · exact absurd (BitVec.eq_of_toNat_eq h) hpos
    · exact h
  have h20 : (20 : U32).toNat = 20 := rfl
  have hsub : (size - 20).toNat = size.toNat - 20 := by
    rw [BitVec.toNat_sub_of_le (by rw [BitVec.le_def, h20]; exact hsize), h20]
  have hspan : extent [⟨size.toNat - 20, false⟩] = size.toNat := by
    rw [extent_cons, extent_nil, Block.span_mk]; omega
  generalize hs : start.toNat = p at *
  have hstart : start = ptr p := by rw [← hs, ptr_toNat]
  subst hstart
  have hlt : ¬ size.toNat < sizeofMemoryChunk := by rw [sizeofMemoryChunk]; omega
  rw [Heap.init, if_neg hlt]
  refine ⟨rfl, ⟨⟨?_, ?_, ?_, ?_, ?_⟩, trivial⟩, by simp, h0, by rw [hspan]; exact hfit⟩ <;>
    simp only [next_ptr, prev_ptr, magic_ptr, allocated_ptr, size_ptr, setNext_ptr, setPrev_ptr,
      setMagic_ptr, setAllocated_ptr, setSize_ptr, linkTo_nil]
  · simp (disch := omega) only [load32_store32_ptr_of_ne, Memory.load32_store32]
  · simp (disch := omega) only [load32_store32_ptr_of_ne, Memory.load32_store32]
  · rw [Memory.load32_store32]
  · simp (disch := omega) only [byte_store32_ptr_of_ne, Memory.byte_store8_same]
    rfl
  · simp (disch := omega) only [load32_store32_ptr_of_ne, Memory.load32_store32]
    exact hsub

/-! ## `malloc` -/

theorem Represents.clearLog {h : Heap} {start : ℕ} {bs : List Block} (hr : Represents h start bs) :
    Represents { h with mem := h.mem.clearLog } start bs :=
  ⟨hr.first_eq, hr.linked.congr fun _ _ _ => rfl, hr.nonempty, hr.start_pos, hr.fits⟩

theorem Represents.first_linkTo {h : Heap} {start : ℕ} {bs : List Block}
    (hr : Represents h start bs) : h.first = linkTo start bs nullptr := by
  rw [hr.first_eq]
  obtain ⟨b, bs, rfl⟩ := List.exists_cons_of_ne_nil hr.nonempty
  rfl

/-- `malloc` on a heap of linked blocks returns: null, with nothing changed, when the guard rejects the
    request or no block fits, and otherwise the payload of the first block that fits. -/
theorem malloc_cases {h : Heap} {start : ℕ} {bs : List Block} (hr : Represents h start bs) (n : U32) :
    (h.malloc n = some (nullptr, h) ∧
      (h.outOfMemory n = true ∨ ∀ b ∈ bs, ¬ b.Fits n.toNat)) ∨
    ∃ pre c post, bs = pre ++ c :: post ∧ (∀ b ∈ pre, ¬ b.Fits n.toNat) ∧ c.Fits n.toNat ∧
      PlacedIn h n (ptr (start + extent pre)) ∧
      h.malloc n = some (ptr (start + extent pre + 20), h.split (ptr (start + extent pre)) n) := by
  have hfits := hr.fits
  cases hg : h.outOfMemory n with
  | true => exact Or.inl ⟨by simp [malloc, hg], Or.inl rfl⟩
  | false =>
    have hlen := mul_length_le_extent bs
    have haddr : bs.length < addresses := by
      rw [addresses]
      have := List.length_pos_of_ne_nil hr.nonempty
      omega
    rcases search_linked (n := n) hr.linked hr.start_pos hfits haddr with ⟨hs, hno⟩ |
      ⟨pre, c, post, rfl, hpre, hc, hs⟩
    · rw [← hr.first_linkTo] at hs
      exact Or.inl ⟨by simp [malloc, hg, hs], Or.inr hno⟩
    · rw [← hr.first_linkTo] at hs
      have hspan := c.le_span
      rw [extent_append, extent_cons] at hfits
      have hne : ptr (start + extent pre) ≠ nullptr :=
        ptr_ne_nullptr (by have := hr.start_pos; omega) (by omega)
      refine Or.inr ⟨pre, c, post, rfl, hpre, hc, ⟨hg, firstFit_of_search hs hne⟩, ?_⟩
      simp only [malloc, hg, hs, hne, Bool.false_eq_true, if_false]
      rw [ptr_add_ofNat]

/-- A split under the condition of `MallocKeepsLinks` makes a heap of linked blocks. -/
theorem represents_split {h : Heap} {start : ℕ} {pre post : List Block} {c : Block} {n : U32}
    (hr : Represents h start (pre ++ c :: post))
    (hplaced : PlacedIn h n (ptr (start + extent pre))) (hok : MallocKeepsLinks h n) :
    n.toNat + 20 ≤ c.size ∧
      Represents (h.split (ptr (start + extent pre)) n) start (pre ++ (cut n.toNat c ++ post)) := by
  have hh := (linked_cons.mp (linked_append.mp hr.linked).2).1
  have hcond := hok _ hplaced
  rw [hh.size_eq, hh.next_eq, linkLowByte, hh.next_eq] at hcond
  have hroom : n.toNat + 20 ≤ c.size := by omega
  have hfits := hr.fits
  have hpos := hr.start_pos
  refine ⟨hroom, hr.first_eq, ?_, by simp [cut], hr.start_pos, ?_⟩
  · refine linked_split hr.linked hr.start_pos hr.fits hroom ?_
    intro heq hne
    obtain ⟨d, rest, rfl⟩ := List.exists_cons_of_ne_nil hne
    have hd := d.le_span
    simp only [extent_append, extent_cons] at hfits
    have hlink : ptr (start + extent pre + c.span) ≠ nullptr :=
      ptr_ne_nullptr (by omega) (by omega)
    rw [linkTo_cons] at hcond
    rcases hcond with h | ⟨-, h | h⟩
    · omega
    · exact absurd h hlink
    · exact h
  · simp only [cut, extent_append, extent_cons, extent_nil, Block.span_mk, Block.span_eq c,
      sizeofMemoryChunk] at hfits ⊢
    omega

/-! ## `free` -/

theorem Released.extent_eq {c : Block} {pre post res : List Block} (h : Released c post pre res) :
    extent res = extent (pre ++ c :: post) := by
  have hright : ∀ (c : Block) (post : List Block), extent (mergeRight c post) = c.span + extent post := by
    intro c post
    cases post with
    | nil => rfl
    | cons d post =>
      rw [mergeRight]
      split_ifs
      · rfl
      · rw [extent_cons, extent_cons, Block.span_join, Nat.add_assoc]
  cases h with
  | swallowed _ =>
    simp only [extent_append, hright, Block.span_join, extent_cons, extent_nil]
    omega
  | kept _ => simp only [extent_append, hright, Block.span_flag, extent_cons]

theorem mergeRight_ne_nil (c : Block) (post : List Block) : mergeRight c post ≠ [] := by
  cases post with
  | nil => simp [mergeRight]
  | cons d post =>
    rw [mergeRight]
    split_ifs <;> simp

/-- The condition of `FreeKeepsLinks` on the blocks behind the chunk. -/
theorem freeKeepsLinks_iff {h : Heap} {start : ℕ} {pre post : List Block} {c : Block}
    (hr : Represents h start (pre ++ c :: post)) :
    FreeKeepsLinks h (ptr (start + extent pre + 20)) ↔
      ∀ d rest, post = d :: rest → d.allocated = true ∨ rest = [] := by
  have hh := (linked_cons.mp (linked_append.mp hr.linked).2).1
  have hfits := hr.fits
  have hpos := hr.start_pos
  have hchunk : ptr (start + extent pre + 20) - 20 = ptr (start + extent pre) := by
    rw [← ptr_add_ofNat, BitVec.add_sub_cancel]
  simp only [FreeKeepsLinks, hchunk, hh.next_eq]
  cases post with
  | nil => simp
  | cons d rest =>
    have hhd := (linked_cons.mp (linked_cons.mp (linked_append.mp hr.linked).2).2).1
    have hdspan := d.le_span
    simp only [extent_append, extent_cons] at hfits
    have hne : ptr (start + extent pre + c.span) ≠ nullptr := ptr_ne_nullptr (by omega) (by omega)
    have hlink : linkTo (start + extent pre + c.span + d.span) rest nullptr = nullptr ↔ rest = [] := by
      cases rest with
      | nil => simp
      | cons e rest =>
        have hespan := e.le_span
        rw [extent_cons] at hfits
        simp [ptr_ne_nullptr (by omega : 0 < start + extent pre + c.span + d.span) (by omega)]
    rw [linkTo_cons, hhd.allocated_eq, hhd.next_eq, hlink]
    simp [hne]

/-- `free` under the condition of `FreeKeepsLinks` makes a heap of linked blocks. -/
theorem represents_free {h : Heap} {start : ℕ} {pre post : List Block} {c : Block}
    (hr : Represents h start (pre ++ c :: post))
    (hok : FreeKeepsLinks h (ptr (start + extent pre + 20))) :
    ∃ res, Released c post pre res ∧
      Represents (h.free (ptr (start + extent pre + 20))) start res ∧
      ∀ w ∈ (h.free (ptr (start + extent pre + 20))).mem.written,
        w ∈ h.mem.written ∨ InHeaders start (pre ++ c :: post) w := by
  obtain ⟨res, hrel, hl, hw⟩ :=
    linked_free hr.linked hr.start_pos hr.fits ((freeKeepsLinks_iff hr).mp hok)
  refine ⟨res, hrel, ⟨hr.first_eq, hl, ?_, hr.start_pos, by rw [hrel.extent_eq]; exact hr.fits⟩, hw⟩
  cases hrel with
  | swallowed _ => exact List.append_ne_nil_of_right_ne_nil _ (mergeRight_ne_nil _ _)
  | kept _ => exact List.append_ne_nil_of_right_ne_nil _ (mergeRight_ne_nil _ _)

end Pros
