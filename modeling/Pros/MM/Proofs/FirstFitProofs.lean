import Pros.MM.HeapCalls
import Pros.MM.Proofs.HeapSafetyProofs

/-!
# `malloc` is first-fit

For any memory in which the chunk list ends. Only the pointer that is handed out can be mistaken: the chunk that
ends at the top of the address space has its payload at address 0.
-/

namespace Pros

open MemoryChunk Heap

variable {m : Ram} {n c d : U32} {cs : List U32} {h : Heap} {fuel : ℕ}

/-! ## Finite lists -/

/-- A walk is determined by where it starts. -/
theorem Walk.unique {cs' : List U32} (h : Walk m c cs) (h' : Walk m c cs') : cs = cs' := by
  induction cs generalizing c cs' with
  | nil =>
    cases cs' with
    | nil => rfl
    | cons d cs' => exact absurd h h'.1
  | cons d cs ih =>
    cases cs' with
    | nil => exact absurd h' h.1
    | cons d' cs' =>
      obtain ⟨-, rfl, hd⟩ := h
      obtain ⟨-, rfl, hd'⟩ := h'
      rw [ih hd hd']

/-- What is behind a chunk of the walk. -/
theorem Walk.suffix {pre post : List U32} (h : Walk m c (pre ++ d :: post)) : Walk m d (d :: post) := by
  induction pre generalizing c with
  | nil =>
    obtain ⟨h1, rfl, h3⟩ := h
    exact ⟨h1, rfl, h3⟩
  | cons e pre ih => exact ih h.2.2

/-- No chunk is visited twice. -/
theorem Walk.nodup (h : Walk m c cs) : cs.Nodup := by
  induction cs generalizing c with
  | nil => exact List.nodup_nil
  | cons d cs ih =>
    refine List.nodup_cons.mpr ⟨fun hmem => ?_, ih h.2.2⟩
    obtain ⟨pre, post, rfl⟩ := List.append_of_mem hmem
    obtain ⟨h1, rfl, h3⟩ := h
    have hlast : Walk m c (c :: post) := Walk.suffix h3
    have hfirst : Walk m c (c :: (pre ++ c :: post)) := ⟨h1, rfl, h3⟩
    -- the walk from the second visit would be as long as the one from the first
    have hlen := congrArg List.length (hlast.unique hfirst)
    simp only [List.length_cons, List.length_append] at hlen
    omega

/-- No chunk of a walk is null. -/
theorem Walk.ne_nullptr (h : Walk m c cs) (hmem : d ∈ cs) : d ≠ nullptr := by
  obtain ⟨pre, post, rfl⟩ := List.append_of_mem hmem
  exact (Walk.suffix h).1

/-- A list that ends is shorter than the search loop runs. -/
theorem Walk.length_lt (h : Walk m c cs) : cs.length < addresses := by
  have hnodup : (nullptr :: cs).Nodup := List.nodup_cons.mpr ⟨fun h0 => h.ne_nullptr h0 rfl, h.nodup⟩
  have hcard := (hnodup.map (f := BitVec.toFin) fun _ _ => BitVec.toFin_inj.mp).length_le_card
  rw [List.length_map, List.length_cons, Fintype.card_fin] at hcard
  exact hcard

/-! ## The search -/

/-- The test of the search loop. -/
theorem fits_iff (m : Ram) (n c : U32) :
    (MemoryChunk.size m c > n && !allocated m c) = true ↔ ChunkFits m n c := by
  simp only [ChunkFits, Bool.and_eq_true, decide_eq_true_eq, Bool.not_eq_true', gt_iff_lt]
  exact and_comm

/-- The search finds nothing exactly when no chunk of the list fits. -/
theorem search_none (hcs : Walk m c cs) (hfuel : cs.length < fuel)
    (hno : ∀ d ∈ cs, ¬ ChunkFits m n d) : search m n fuel c = some nullptr := by
  induction cs generalizing c fuel with
  | nil =>
    obtain ⟨fuel, rfl⟩ : ∃ k, fuel = k + 1 := ⟨fuel - 1, by simp at hfuel; omega⟩
    exact if_pos hcs
  | cons d cs ih =>
    obtain ⟨h1, rfl, h3⟩ := hcs
    obtain ⟨fuel, rfl⟩ : ∃ k, fuel = k + 1 := ⟨fuel - 1, by simp at hfuel; omega⟩
    rw [search, if_neg h1, if_neg ((fits_iff m n c).not.mpr (hno c List.mem_cons_self))]
    exact ih h3 (by simpa using hfuel) fun e he => hno e (List.mem_cons_of_mem c he)

/-- The search stops at the first chunk that fits. -/
theorem search_first {pre post : List U32} (hcs : Walk m c (pre ++ d :: post))
    (hfuel : (pre ++ d :: post).length < fuel) (hpre : ∀ e ∈ pre, ¬ ChunkFits m n e)
    (hd : ChunkFits m n d) : search m n fuel c = some d := by
  induction pre generalizing c fuel with
  | nil =>
    obtain ⟨h1, rfl, h3⟩ := hcs
    obtain ⟨fuel, rfl⟩ : ∃ k, fuel = k + 1 := ⟨fuel - 1, by simp at hfuel; omega⟩
    rw [search, if_neg h1, if_pos ((fits_iff m n c).mpr hd)]
  | cons e pre ih =>
    obtain ⟨h1, rfl, h3⟩ := hcs
    obtain ⟨fuel, rfl⟩ : ∃ k, fuel = k + 1 := ⟨fuel - 1, by simp at hfuel; omega⟩
    rw [search, if_neg h1, if_neg ((fits_iff m n c).not.mpr (hpre c List.mem_cons_self))]
    exact ih h3 (by simpa using hfuel) fun e he => hpre e (List.mem_cons_of_mem c he)

/-- Either no chunk of a list fits, or there is a first one. -/
theorem exists_first_fit (m : Ram) (n : U32) (cs : List U32) :
    (∀ c ∈ cs, ¬ ChunkFits m n c) ∨
      ∃ d pre post, cs = pre ++ d :: post ∧ (∀ c ∈ pre, ¬ ChunkFits m n c) ∧ ChunkFits m n d := by
  induction cs with
  | nil => exact .inl fun c hc => absurd hc (List.not_mem_nil)
  | cons e cs ih =>
    by_cases he : ChunkFits m n e
    · exact .inr ⟨e, [], cs, rfl, fun c hc => absurd hc (List.not_mem_nil), he⟩
    · obtain hno | ⟨d, pre, post, rfl, hpre, hd⟩ := ih
      · exact .inl (List.forall_mem_cons.mpr ⟨he, hno⟩)
      · exact .inr ⟨d, e :: pre, post, rfl, List.forall_mem_cons.mpr ⟨he, hpre⟩, hd⟩

/-! ## The call -/

/-- The sum of the guard. -/
theorem toNat_guard (h : Heap) (n : U32) : (h.usedMemory + n + 20).toNat = h.guardSum n := by
  have h20 : (20 : U32).toNat = 20 := rfl
  rw [BitVec.toNat_add, BitVec.toNat_add, h20, Nat.mod_add_mod, Heap.guardSum]

theorem guard_rejects_iff (h : Heap) (n : U32) :
    h.outOfMemory n = true ↔ h.memorySize.toNat ≤ h.guardSum n := by
  rw [outOfMemory, decide_eq_true_eq, ge_iff_le, BitVec.le_def, toNat_guard]

/-- A split accounts for the sum that the guard has compared. -/
theorem usedMemory_split (h : Heap) (d n : U32) :
    (h.split d n).usedMemory.toNat = h.guardSum n := by
  rw [← toNat_guard, BitVec.add_assoc]
  rfl

/-- A payload at address 0 is the one of the chunk at the top of the address space. -/
theorem payload_null_iff (d : U32) : d + 20 = nullptr ↔ d = 0xFFFFFFEC := by
  rw [nullptr]
  bv_omega

/-- A split hands out the chunk that it is given. -/
theorem handsOut_split {pre post : List U32} (hcs : cs = pre ++ d :: post)
    (hpre : ∀ c ∈ pre, ¬ ChunkFits h.mem n c) (hd : ChunkFits h.mem n d) :
    HandsOut h n cs d (h.split d n) := by
  obtain ⟨-, -, -, hallocated, hsize⟩ := @takeChunk_fields
    (backLink (writeTemp h.mem d n) (d + 20 + n) (d + 20 + n)) d.toNat (d + 20 + n) n
  rw [ptr_toNat] at hallocated hsize
  exact ⟨⟨pre, post, hcs, hpre, hd⟩, hallocated, hsize, usedMemory_split h d n⟩

/-- `malloc` fails without a trace exactly when the guard rejects the request or no chunk fits, and takes
    the first chunk that fits otherwise. The pointer is null then, too, when that chunk is the one at the
    top of the address space. -/
theorem malloc_firstFit (h : Heap) (n : U32) (cs : List U32) (hcs : Walk h.mem h.first cs) :
    ∃ result h', h.malloc n = some (result, h') ∧
      (RequestFails h n cs → result = nullptr ∧ h' = h) ∧
      (¬ RequestFails h n cs → ∃ d, HandsOut h n cs d h' ∧ result - 20 = d ∧
        (result = nullptr ↔ d = 0xFFFFFFEC)) := by
  by_cases hg : h.outOfMemory n = true
  · have hfails : RequestFails h n cs := .inl ((guard_rejects_iff h n).mp hg)
    exact ⟨nullptr, h, by rw [malloc, if_pos hg], fun _ => ⟨rfl, rfl⟩, fun hno => absurd hfails hno⟩
  obtain hno | ⟨d, pre, post, hsplit, hpre, hd⟩ := exists_first_fit h.mem n cs
  · refine ⟨nullptr, h, ?_, fun _ => ⟨rfl, rfl⟩, fun h' => absurd (.inr hno) h'⟩
    rw [malloc, if_neg hg, search_none hcs hcs.length_lt hno]
    rfl
  · have hmem : d ∈ cs := by rw [hsplit]; exact List.mem_append_cons_self
    have hfound : search h.mem n addresses h.first = some d := by
      have hlen := hcs.length_lt
      rw [hsplit] at hcs hlen
      exact search_first hcs hlen hpre hd
    have hne : d ≠ nullptr := hcs.ne_nullptr hmem
    refine ⟨d + 20, h.split d n, ?_, fun hfails => ?_, fun _ => ⟨d, ?_, ?_, payload_null_iff d⟩⟩
    · rw [malloc, if_neg hg, hfound]
      exact if_neg hne
    · rcases hfails with hguard | hno
      · exact absurd ((guard_rejects_iff h n).mpr hguard) hg
      · exact absurd hd (hno d hmem)
    · exact handsOut_split hsplit hpre hd
    · exact BitVec.add_sub_cancel d 20

theorem kernel_malloc_firstFit : ∃ result h' d, kernelClient.heap.malloc 40 = some (result, h') ∧
    HandsOut kernelClient.heap 40 [0xC0400000] d h' ∧ result - 20 = d := by
  have hcs : Walk kernelClient.heap.mem kernelClient.heap.first [0xC0400000] := by
    decide +kernel
  obtain ⟨result, h', hm, -, hd⟩ := malloc_firstFit kernelClient.heap 40 [0xC0400000] hcs
  obtain ⟨d, h1, h2, -⟩ := hd fun hfails => by
    rcases hfails with hguard | hno
    · exact absurd hguard (by decide +kernel)
    · exact hno _ List.mem_cons_self ⟨by decide +kernel, by decide +kernel⟩
  exact ⟨result, h', d, hm, h1, h2⟩

/-- A heap with one free chunk, of 100 bytes, whose header ends where the address space does. -/
def topHeap : Heap where
  memorySize := 1000
  usedMemory := 0
  first := 0xFFFFFFEC
  mem := { byte := fun a => if a = 0xFFFFFFFC then 100 else 0 }

/-- The chunk of `topHeap` is handed out although the call returns null. -/
theorem topHeap_malloc_null : Walk topHeap.mem topHeap.first [0xFFFFFFEC] ∧
    ¬ RequestFails topHeap 8 [0xFFFFFFEC] ∧
    ∃ h', topHeap.malloc 8 = some (nullptr, h') ∧ h'.usedMemory = 28 ∧
      allocated h'.mem 0xFFFFFFEC = true := by
  refine ⟨by decide +kernel, fun hfails => ?_, ?_⟩
  · rcases hfails with hguard | hno
    · exact absurd hguard (by decide +kernel)
    · exact hno _ List.mem_cons_self ⟨by decide +kernel, by decide +kernel⟩
  · have hany : (topHeap.malloc 8).any (fun x => decide (x.1 = nullptr ∧ x.2.usedMemory = 28 ∧
        allocated x.2.mem 0xFFFFFFEC = true)) := by
      decide +kernel
    obtain ⟨⟨p, h'⟩, hm, hprop⟩ := (Option.any_eq_true _ _).mp hany
    obtain ⟨rfl, h1, h2⟩ := of_decide_eq_true hprop
    exact ⟨h', hm, h1, h2⟩

end Pros
