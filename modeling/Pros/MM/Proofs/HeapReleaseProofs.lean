import Pros.MM.HeapCalls
import Pros.MM.Proofs.HeapSafetyProofs

/-!
# What one call of `free` releases

A well-formed list is a list of linked blocks, so `free` can be followed block by block. It releases the chunk,
and no other, exactly when the chunk is the first one and a free chunk that follows it is the last: a chunk before
it swallows it when it is handed out and stays apart from it when it is free.
-/

namespace Pros

open MemoryChunk Heap

/-! ## Well-formed lists as linked blocks -/

section WellFormed

variable {m : Ram} {start stop pos : ℕ} {before after chunk first p : U32} {bs : List Block} {cs : List U32}
  {h : Heap}

theorem linked_of_walk (hwalk : Walk m chunk cs) (htiles : Tiles m stop pos cs) (hback : BackLinks m p cs)
    (hmagic : ∀ c ∈ cs, magic m c = HEAP_MAGIC) :
    ∃ bs, chunk = linkTo pos bs nullptr ∧ Linked m p pos bs nullptr ∧ pos + extent bs = stop := by
  induction cs generalizing chunk p pos with
  | nil => exact ⟨[], hwalk, trivial, htiles⟩
  | cons c cs ih =>
    obtain ⟨-, rfl, hwalk⟩ := hwalk
    obtain ⟨hpos, htiles⟩ := htiles
    obtain ⟨hprev, hback⟩ := hback
    obtain ⟨hm, hrest⟩ := List.forall_mem_cons.mp hmagic
    obtain rfl : chunk = ptr pos := by rw [← hpos, ptr_toNat]
    obtain ⟨bs, hnext, hl, hext⟩ := ih hwalk htiles hback hrest
    rw [Nat.add_assoc] at hnext hl
    refine ⟨⟨(size m (ptr pos)).toNat, allocated m (ptr pos)⟩ :: bs, rfl,
      ⟨⟨hnext, hprev, hm, rfl, rfl⟩, hl⟩, ?_⟩
    rw [extent_cons, Block.span_mk, ← Nat.add_assoc, ← Nat.add_assoc]
    exact hext

/-- A well-formed list with a chunk on it is a list of linked blocks. -/
theorem WellFormed.represents (hw : WellFormed start stop h) (hstop : stop ≤ 2 ^ 32)
    (hon : OnList h.mem h.first chunk) : ∃ bs, Represents h start bs ∧ start + extent bs = stop := by
  have hfirst : h.first ≠ nullptr := by
    induction hon with
    | first h1 => exact h1
    | next _ _ ih => exact ih
  obtain ⟨cs, hwalk, htiles, hback, hmagic⟩ := hw
  obtain ⟨bs, heq, hl, hext⟩ := linked_of_walk hwalk htiles hback hmagic
  have hne : bs ≠ [] := by
    rintro rfl
    exact hfirst heq
  obtain ⟨b, bs, rfl⟩ := List.exists_cons_of_ne_nil hne
  have hpos : 0 < start := by
    rcases Nat.eq_zero_or_pos start with rfl | h0
    · exact absurd heq hfirst
    · exact h0
  exact ⟨b :: bs, ⟨heq, hl, hne, hpos, by omega⟩, hext⟩

/-- The list leads along linked blocks to what is behind them. -/
theorem OnList.linked (hl : Linked m before pos bs after) (hpos : 0 < pos) (hfit : pos + extent bs ≤ 2 ^ 32)
    (hafter : after ≠ nullptr) (hon : OnList m first (linkTo pos bs after)) : OnList m first after := by
  induction bs generalizing before pos with
  | nil => exact hon
  | cons b bs ih =>
    have hspan := b.le_span
    rw [extent_cons] at hfit
    refine ih hl.2 (by omega) (by omega) ?_
    rw [← hl.1.next_eq]
    refine OnList.next hon ?_
    rw [hl.1.next_eq]
    cases bs with
    | nil => exact hafter
    | cons d bs =>
      have hdspan := d.le_span
      rw [extent_cons] at hfit
      exact ptr_ne_nullptr (by omega) (by omega)

/-- Every block is on the list. -/
theorem Represents.block {pre post : List Block} {b : Block} (hr : Represents h start (pre ++ b :: post)) :
    OnList h.mem h.first (ptr (start + extent pre)) ∧ allocated h.mem (ptr (start + extent pre)) = b.allocated ∧
      (size h.mem (ptr (start + extent pre))).toNat = b.size := by
  obtain ⟨hpre, hh⟩ := linked_append.mp hr.linked
  have hspan := b.le_span
  have hfits := hr.fits
  have hpos := hr.start_pos
  rw [extent_append, extent_cons] at hfits
  refine ⟨OnList.linked hpre hpos (by omega) (ptr_ne_nullptr (by omega) (by omega)) ?_, hh.1.allocated_eq,
    hh.1.size_eq⟩
  rw [← linkTo_cons (start + extent pre) b post nullptr, ← linkTo_append, ← hr.first_linkTo]
  refine .first ?_
  rw [hr.first_eq]
  exact ptr_ne_nullptr hpos (by omega)

theorem Represents.first_block {post : List Block} {b : Block} (hr : Represents h start (b :: post)) :
    OnList h.mem h.first (ptr start) ∧ allocated h.mem (ptr start) = b.allocated ∧
      (size h.mem (ptr start)).toNat = b.size :=
  (show Represents h start ([] ++ b :: post) from hr).block

/-- A chunk on the list is a block. -/
theorem Represents.exists_block (hr : Represents h start bs) (hon : OnList h.mem h.first chunk) :
    ∃ pre b post, bs = pre ++ b :: post ∧ chunk = ptr (start + extent pre) := by
  rw [hr.first_eq] at hon
  obtain ⟨a, b, hab, rfl⟩ := onList_position hr.nonempty hr.linked hon
  obtain ⟨pre, post, rfl, rfl⟩ := Tiling.exists_split_of_mem_positions hab
  exact ⟨pre, b, post, rfl, rfl⟩

end WellFormed

/-! ## Where the chunk must be -/

section Release

variable {start stop : ℕ} {pre post : List Block} {c : Block} {h : Heap}

/-- What is behind a list of blocks is not linked back to itself. -/
theorem lastOf_ne {k : ℕ} (hpos : 0 < start) (hle : start + extent pre ≤ k) (hk : k < 2 ^ 32) :
    lastOf nullptr start pre ≠ ptr k := by
  rcases List.eq_nil_or_concat' pre with rfl | ⟨pre, b, rfl⟩
  · exact (ptr_ne_nullptr (by omega) hk).symm
  · have hspan := b.le_span
    rw [extent_append, extent_cons, extent_nil] at hle
    rw [lastOf_append, lastOf_cons, lastOf_nil]
    intro heq
    have := (ptr_inj (by omega) (by omega)).mp heq
    omega

/-- After a merge with a free chunk that has a successor, the list is not well formed. -/
theorem not_wellFormed_mergeNext {m : Ram} {d e : Block} {h' : Heap}
    (hl : Linked m nullptr start (pre ++ c :: d :: e :: post) nullptr) (hpos : 0 < start)
    (hfit : start + extent (pre ++ c :: d :: e :: post) ≤ 2 ^ 32) (hd : d.allocated = false)
    (hfirst : h'.first = ptr start) (hmem : h'.mem = mergeNext m (ptr (start + extent pre))) :
    ¬ WellFormed start stop h' := by
  intro hw
  obtain ⟨hpre, hc, hpost, -⟩ := mergeNext_free hl hpos hfit hd
  rw [← hmem] at hpre hc hpost
  simp only [extent_append, extent_cons] at hfit
  have hspan := c.le_span
  have hdspan := d.le_span
  have hespan := e.le_span
  have hhead : h'.first = linkTo start pre (ptr (start + extent pre)) := by
    cases pre <;> exact hfirst
  have hk : ptr (start + extent pre) ≠ nullptr := ptr_ne_nullptr (by omega) (by omega)
  have hon : OnList h'.mem h'.first (ptr (start + extent pre)) := by
    refine OnList.linked hpre hpos (by omega) hk ?_
    rw [← hhead]
    refine .first ?_
    rw [hfirst]
    exact ptr_ne_nullptr hpos (by omega)
  have hback := hw.prev_next hon (by rw [hc.next_eq]; exact ptr_ne_nullptr (by omega) (by omega))
  rw [hc.next_eq, linkTo_cons, hpost.1.prev_eq] at hback
  exact lastOf_ne hpos le_rfl (by omega) hback

/-- A release that leaves a well-formed list did not merge with a chunk that has a successor. -/
theorem freeKeepsLinks_of_wellFormed (hr : Represents h start (pre ++ c :: post))
    (hw : WellFormed start stop (h.free (ptr (start + extent pre + 20)))) :
    FreeKeepsLinks h (ptr (start + extent pre + 20)) := by
  rw [freeKeepsLinks_iff hr]
  rintro d (_ | ⟨e, rest⟩) rfl
  · exact Or.inr rfl
  refine Or.inl (by_contra fun hd => ?_)
  obtain ⟨m, pre', c', hm, hl, hext, -⟩ := free_eq_mergeNext hr.linked hr.start_pos hr.fits
  exact not_wellFormed_mergeNext hl hr.start_pos (by rw [hext]; exact hr.fits) (by simpa using hd)
    (show (h.free (ptr (start + extent pre + 20))).first = ptr start from hr.first_eq) hm hw

/-- The block that a release ends with. -/
theorem mergeRight_eq_cons (c : Block) (post : List Block) :
    ∃ f tail, mergeRight c post = f :: tail ∧ f.allocated = c.allocated ∧ c.size ≤ f.size ∧
      ((∀ d rest, post = d :: rest → d.allocated = true ∨ rest = []) → ∀ d ∈ tail.head?, d.allocated = true) := by
  cases post with
  | nil => exact ⟨c, [], rfl, rfl, le_rfl, by simp⟩
  | cons d rest =>
    rw [mergeRight]
    split_ifs with hd
    · exact ⟨c, d :: rest, rfl, rfl, le_rfl, by simp [hd]⟩
    · refine ⟨join c d, rest, rfl, rfl, Nat.le_add_right _ _, fun hlast => ?_⟩
      rw [(hlast d rest rfl).resolve_left hd]
      simp

/-- The chunk before a chunk on the list. -/
theorem Represents.block_before {b : Block} (hr : Represents h start (pre ++ [b] ++ c :: post)) :
    prev h.mem (ptr (start + extent (pre ++ [b]))) = ptr (start + extent pre) ∧
      ptr (start + extent pre) ≠ ptr (start + extent (pre ++ [b])) ∧
      ptr (start + extent pre) ≠ nullptr := by
  have hh := (linked_cons.mp (linked_append.mp hr.linked).2).1
  have hfits := hr.fits
  have hpos := hr.start_pos
  have hspan := b.le_span
  have hcspan := c.le_span
  simp only [extent_append, extent_cons, extent_nil] at hfits hh ⊢
  rw [lastOf_append] at hh
  refine ⟨hh.prev_eq, fun heq => ?_, ptr_ne_nullptr (by omega) (by omega)⟩
  have := (ptr_inj (by omega) (by omega)).mp heq
  omega

/-- What becomes of a chunk with a chunk before it. -/
theorem Released.of_append {b : Block} {res : List Block} (hres : Released c post (pre ++ [b]) res) :
    (b.allocated = true ∧ res = pre ++ mergeRight (join b c) post) ∨
      (b.allocated = false ∧ res = pre ++ [b] ++ mergeRight { c with allocated := false } post) := by
  generalize hp : pre ++ [b] = p at hres
  cases hres with
  | swallowed hb =>
    obtain ⟨rfl, hbs⟩ := List.append_inj' hp rfl
    obtain ⟨rfl, -⟩ := List.cons.inj hbs
    exact Or.inl ⟨hb, rfl⟩
  | kept hb =>
    subst hp
    exact Or.inr ⟨hb b (by simp), rfl⟩

/-- If a block starts where the chunk did, the free chunk that covers it does. -/
theorem Coalesced.eq_chunk {h' : Heap} {f : U32} {g : Block} {tail : List Block}
    (hf : Coalesced h (ptr (start + extent pre)) h' f) (hr : Represents h start (pre ++ c :: post))
    (hr' : Represents h' start (pre ++ g :: tail)) : f = ptr (start + extent pre) := by
  obtain ⟨pre', y, post', hsplit, rfl⟩ := hr'.exists_block hf.onList
  have hgmem : (start + extent pre, g) ∈ Tiling.positions Block.span start (pre ++ g :: tail) :=
    Tiling.mem_positions_split pre tail g
  have hymem : (start + extent pre', y) ∈ Tiling.positions Block.span start (pre' ++ y :: post') :=
    Tiling.mem_positions_split pre' post' y
  have hysize : (size h'.mem (ptr (start + extent pre'))).toNat = y.size := (hsplit ▸ hr').block.2.2
  have hfits := hr'.fits
  rw [← hsplit] at hymem
  have hybound := position_bounds hymem
  have hgbound := position_bounds hgmem
  have hcovers := hf.covers
  rw [toNat_ptr_of_lt (by omega), toNat_ptr_of_lt (by omega), hysize, hr.block.2.2] at hcovers
  rw [sizeofMemoryChunk] at hcovers
  have hapart := Tiling.eq_or_apart hgmem hymem
  simp only [Block.span_eq] at hapart
  rcases hapart with heq | hlt | hlt
  · exact congrArg (fun x => ptr x.1) heq.symm
  · omega
  · omega

/-- A chunk that is released for good has no chunk before it. -/
theorem Releases.pre_eq_nil (hr : Represents h start (pre ++ c :: post))
    (hrel : Releases start stop h (ptr (start + extent pre)) (h.free (ptr (start + extent pre + 20)))) :
    pre = [] := by
  obtain ⟨res, hres, hr', -⟩ := represents_free hr (freeKeepsLinks_of_wellFormed hr hrel.wellFormed)
  rcases List.eq_nil_or_concat' pre with rfl | ⟨pre, b, rfl⟩
  · rfl
  exfalso
  have hassoc : ∀ bs, pre ++ [b] ++ bs = pre ++ b :: bs := fun bs => by rw [List.append_assoc]; rfl
  rcases hres.of_append with ⟨hball, rfl⟩ | ⟨hbfree, rfl⟩
  · -- the size of the chunk that swallows it changes
    have hrb : Represents h start (pre ++ b :: c :: post) := hassoc (c :: post) ▸ hr
    obtain ⟨hon, hall, hsize⟩ := hrb.block
    have hkept := (hrel.others _ hon hr.block_before.2.1 (hall.trans hball)).2.2
    obtain ⟨f, tail, hf, -, hle, -⟩ := mergeRight_eq_cons (join b c) post
    rw [hf] at hr'
    have hgrown := hr'.block.2.2
    rw [hkept, hsize] at hgrown
    change b.size + (c.size + 20) ≤ f.size at hle
    omega
  · -- the free chunk before it stays its neighbour
    obtain ⟨f, hf⟩ := hrel.coalesced
    obtain ⟨g, tail, hg, -, -, -⟩ := mergeRight_eq_cons { c with allocated := false } post
    rw [hg] at hr'
    obtain rfl := hf.eq_chunk hr hr'
    obtain ⟨hprev, -, hnull⟩ := hr'.block_before
    have hrb : Represents _ start (pre ++ b :: g :: tail) := hassoc (g :: tail) ▸ hr'
    have hbefore := hf.before
    rw [hprev, hrb.block.2.1, hbfree] at hbefore
    exact hbefore.elim hnull Bool.false_ne_true

/-! ## The first chunk -/

/-- The other allocated blocks keep their places and sizes when a block is merged with a free one. -/
theorem mergeRight_others {pos a : ℕ} {d : Block}
    (had : (a, d) ∈ Tiling.positions Block.span pos (c :: post)) (hne : a ≠ pos) (hd : d.allocated = true) :
    (a, d) ∈ Tiling.positions Block.span pos (mergeRight { c with allocated := false } post) := by
  rw [Tiling.positions_cons, List.mem_cons] at had
  have htail := had.resolve_left fun heq => hne (congrArg Prod.fst heq)
  cases post with
  | nil => exact absurd htail List.not_mem_nil
  | cons e rest =>
    rw [mergeRight]
    split_ifs with he
    · exact List.mem_cons_of_mem _ htail
    · rw [Tiling.positions_cons, List.mem_cons] at htail
      rcases htail with heq | htail
      · obtain ⟨-, rfl⟩ := Prod.mk.injEq .. |>.mp heq
        exact absurd hd he
      · rw [Tiling.positions_cons, Block.span_join, Block.span_flag, ← Nat.add_assoc]
        exact List.mem_cons_of_mem _ htail

/-- The first chunk is released when a free chunk behind it is the last. -/
theorem releases_first (hr : Represents h start (c :: post)) (hok : FreeKeepsLinks h (ptr (start + 20))) :
    Releases start (start + extent (c :: post)) h (ptr start) (h.free (ptr (start + 20))) := by
  have hnil : Represents h start ([] ++ c :: post) := hr
  have hlast := (freeKeepsLinks_iff hnil).mp hok
  obtain ⟨res, hrel, hr', -⟩ : ∃ res, Released c post [] res ∧
      Represents (h.free (ptr (start + 20))) start res ∧ _ := represents_free hnil hok
  have hext : extent res = extent (c :: post) := hrel.extent_eq
  have hres : res = mergeRight { c with allocated := false } post := by
    generalize hp : ([] : List Block) = p at hrel
    cases hrel with
    | swallowed _ => exact absurd hp (by simp)
    | kept _ => rw [← hp]; rfl
  obtain ⟨f, tail, hf, hfree, hle, htail⟩ := mergeRight_eq_cons { c with allocated := false } post
  constructor
  case wellFormed => exact hext ▸ hr'.wellFormed
  case coalesced =>
    rw [hres, hf] at hr'
    obtain ⟨hon, hall, hsize⟩ := hr'.first_block
    refine ⟨ptr start, hon, hall.trans hfree, ⟨le_rfl, ?_⟩, Or.inl hr'.linked.1.prev_eq, ?_⟩
    · rw [hr.first_block.2.2, hsize]
      exact Nat.add_le_add_left hle _
    · rw [hr'.linked.1.next_eq]
      cases tail with
      | nil => exact Or.inl rfl
      | cons d tail =>
        rw [linkTo_cons, hr'.linked.2.1.allocated_eq]
        exact Or.inr (htail hlast d rfl)
  case others =>
    intro e hon hne hall
    obtain ⟨pre, d, rest, hsplit, rfl⟩ := hr.exists_block hon
    have hd := (hsplit ▸ hr).block
    have hmem : (start + extent pre, d) ∈ Tiling.positions Block.span start (c :: post) := by
      rw [hsplit]
      exact Tiling.mem_positions_split pre rest d
    have hmem' := mergeRight_others hmem (fun heq => hne (by rw [heq])) (hd.2.1 ▸ hall)
    rw [← hres] at hmem'
    obtain ⟨pre', rest', hsplit', heq⟩ := Tiling.exists_split_of_mem_positions hmem'
    obtain ⟨hon', hall', hsize'⟩ := (hsplit' ▸ hr').block
    change start + extent pre = start + extent pre' at heq
    rw [← heq] at hon' hall' hsize'
    refine ⟨hon', ?_, BitVec.eq_of_toNat_eq ?_⟩
    · rw [hall', ← hd.2.1, hall]
    · rw [hsize', hd.2.2]

/-- `free` releases an allocated chunk of a well-formed list, and no other, exactly when the chunk is the
    first one and does not merge with a chunk that has a successor. -/
theorem free_releases_iff {chunk : U32} (hw : WellFormed start stop h) (hstop : stop ≤ 2 ^ 32)
    (hon : OnList h.mem h.first chunk) (hall : allocated h.mem chunk = true) :
    Releases start stop h chunk (h.free (chunk + 20)) ↔
      prev h.mem chunk = nullptr ∧ FreeKeepsLinks h (chunk + 20) := by
  obtain ⟨bs, hr, rfl⟩ := hw.represents hstop hon
  obtain ⟨pre, c, post, rfl, rfl⟩ := hr.exists_block hon
  rw [ptr_add_ofNat]
  constructor
  · intro hrel
    have hkeeps := freeKeepsLinks_of_wellFormed hr hrel.wellFormed
    obtain rfl := hrel.pre_eq_nil hr
    exact ⟨hr.linked.1.prev_eq, hkeeps⟩
  · rintro ⟨hprev, hkeeps⟩
    rcases List.eq_nil_or_concat' pre with rfl | ⟨pre, b, rfl⟩
    · exact releases_first hr hkeeps
    · obtain ⟨hprev', -, hnull⟩ := hr.block_before
      exact absurd (hprev'.symm.trans hprev) hnull

end Release

/-! ## The kernel's heap -/

theorem kernel_free_releases : ∃ c, kernelClient.Step (.malloc 40) c ∧
    Releases 0xC0400000 0xC0500000 c.heap 0xC0400000 (c.heap.free (0xC0400000 + 20)) := by
  have hany : (kernelClient.step (.malloc 40)).any (fun c => decide (
      (Walk c.heap.mem c.heap.first [0xC0400000, 0xC040003C] ∧
        Tiles c.heap.mem 0xC0500000 0xC0400000 [0xC0400000, 0xC040003C] ∧
        BackLinks c.heap.mem nullptr [0xC0400000, 0xC040003C] ∧
        [0xC0400000, 0xC040003C].all fun d => magic c.heap.mem d = HEAP_MAGIC) ∧
      allocated c.heap.mem 0xC0400000 = true ∧ prev c.heap.mem 0xC0400000 = nullptr ∧
      next c.heap.mem 0xC040003C = nullptr)) := by
    decide +kernel
  obtain ⟨c, hc, hprop⟩ := (Option.any_eq_true _ _).mp hany
  obtain ⟨hlist, hall, hprev, hnext⟩ := of_decide_eq_true hprop
  simp only [List.all_eq_true, decide_eq_true_eq] at hlist
  obtain ⟨hnull, hfirst, -, hsecond, -⟩ := hlist.1
  have hon : OnList c.heap.mem c.heap.first 0xC0400000 := hfirst ▸ .first hnull
  refine ⟨c, hc, (free_releases_iff ⟨_, hlist⟩ (by decide) hon hall).mpr ⟨hprev, Or.inr (Or.inr ?_)⟩⟩
  rw [BitVec.add_sub_cancel, hsecond]
  exact hnext

/-- On the kernel's heap, freeing the second of two allocations makes the first one grow. -/
theorem kernel_free_swallowed : ∃ c, Run HeapClient.Step kernelClient [.malloc 40, .malloc 8] c ∧
    WellFormed 0xC0400000 0xC0500000 c.heap ∧ NoFreeNeighbours c.heap ∧
    OnList c.heap.mem c.heap.first 0xC040003C ∧ allocated c.heap.mem 0xC040003C = true ∧
    ¬ Releases 0xC0400000 0xC0500000 c.heap 0xC040003C (c.heap.free (0xC040003C + 20)) := by
  have hany : ([HeapOp.malloc 40, .malloc 8].foldlM HeapClient.step kernelClient).any (fun c => decide (
      (Walk c.heap.mem c.heap.first [0xC0400000, 0xC040003C, 0xC0400058] ∧
        Tiles c.heap.mem 0xC0500000 0xC0400000 [0xC0400000, 0xC040003C, 0xC0400058] ∧
        BackLinks c.heap.mem nullptr [0xC0400000, 0xC040003C, 0xC0400058] ∧
        [0xC0400000, 0xC040003C, 0xC0400058].all fun d => magic c.heap.mem d = HEAP_MAGIC) ∧
      ([0xC0400000, 0xC040003C, 0xC0400058].all fun d =>
        allocated c.heap.mem d = false → next c.heap.mem d = nullptr) ∧
      allocated c.heap.mem 0xC0400000 = true ∧ allocated c.heap.mem 0xC040003C = true ∧
      size (c.heap.free (0xC040003C + 20)).mem 0xC0400000 ≠ size c.heap.mem 0xC0400000)) := by
    decide +kernel
  obtain ⟨c, hc, hprop⟩ := (Option.any_eq_true _ _).mp hany
  obtain ⟨hlist, hfree, hall, hall', hsize⟩ := of_decide_eq_true hprop
  simp only [List.all_eq_true, decide_eq_true_eq] at hlist hfree
  obtain ⟨hnull, hfirst, -, hsecond, -⟩ := hlist.1
  have hon : OnList c.heap.mem c.heap.first 0xC0400000 := hfirst ▸ .first hnull
  have hon' : OnList c.heap.mem c.heap.first 0xC040003C :=
    hsecond ▸ OnList.next hon (by rw [hsecond]; decide)
  refine ⟨c, Run.of_foldlM hc, ⟨_, hlist⟩, fun d hd hdfree => ?_, hon', hall', fun hrel => ?_⟩
  · exact Or.inl (hfree d (hlist.1.mem_of_onList hlist.2.2.1 hd) hdfree)
  · exact hsize (hrel.others _ hon (by decide) hall).2.2

end Pros
