import Pros.Lib.Proofs.CompareProofs

/-!
# `strsep` takes a string apart

A call of `strsep` goes over the characters that are not delimiters and cuts the string at the first one that is.
Calling it until it returns null gives the pieces between the delimiters one after the other.
-/

namespace Pros

variable {delim s tok rest : CString}

/-! ## Pieces -/

/-- `strsep` takes the first piece off. -/
theorem splitOnP_strsepOf (delim s : CString) : s.splitOnP (· ∈ delim) =
    (strsepOf delim s).1 :: ((strsepOf delim s).2.map fun r => r.splitOnP (· ∈ delim)).getD [] := by
  induction s with
  | nil => rfl
  | cons c s ih =>
    rw [List.splitOnP_cons_eq_if_modifyHead, strsepOf]
    by_cases hc : c ∈ delim
    · rw [if_pos (decide_eq_true hc), if_pos hc]
      rfl
    · rw [if_neg (by simpa using hc), if_neg hc, ih]
      rfl

/-- A single delimiter. -/
theorem splitOnP_singleton (c : CChar) (s : CString) : s.splitOnP (· ∈ [c]) = s.splitOn c := by
  rw [List.splitOn_eq_splitOnP]
  congr 1
  funext x
  simp [Bool.beq_eq_decide_eq]

/-- A string has no delimiter, or it is split at the first one. -/
theorem strsepOf_cases (delim s : CString) :
    strsepOf delim s = (s, none) ∧ (∀ c ∈ s, c ∉ delim) ∨
      ∃ tok c r, s = tok ++ c :: r ∧ (∀ d ∈ tok, d ∉ delim) ∧ c ∈ delim ∧ strsepOf delim s = (tok, some r) := by
  induction s with
  | nil => exact Or.inl ⟨rfl, by simp⟩
  | cons c s ih =>
    rw [strsepOf]
    by_cases hc : c ∈ delim
    · rw [if_pos hc]
      exact Or.inr ⟨[], c, s, rfl, by simp, hc, rfl⟩
    · rw [if_neg hc]
      rcases ih with ⟨heq, hall⟩ | ⟨tok, d, r, rfl, hall, hd, heq⟩
      · exact Or.inl ⟨by rw [heq], List.forall_mem_cons.mpr ⟨hc, hall⟩⟩
      · exact Or.inr ⟨c :: tok, d, r, rfl, List.forall_mem_cons.mpr ⟨hc, hall⟩, hd, by rw [heq]⟩

/-- One more piece than there are delimiters. -/
theorem length_splitOnP (delim s : CString) :
    (s.splitOnP (· ∈ delim)).length = s.countP (· ∈ delim) + 1 := by
  induction s with
  | nil => rfl
  | cons c s ih =>
    rw [List.splitOnP_cons_eq_if_modifyHead, List.countP_cons]
    by_cases hc : c ∈ delim
    · rw [if_pos (decide_eq_true hc), if_pos (decide_eq_true hc), List.length_cons, ih]
    · rw [if_neg (by simpa using hc), if_neg (by simpa using hc), List.length_modifyHead, ih]

namespace RamString

/-! ## Loads -/

section Generic

variable {α : Type} [AddCommMonoidWithOne α] {m m' : Memory α} {p q x : α} {n i j : ℕ} {w w' w'' : Watched α}
  {S T : α → Prop}

/-- What was loaded between two states. -/
def LoadsOnly (w w' : Watched α) (S : α → Prop) : Prop := ∀ x ∈ w'.loads, x ∈ w.loads ∨ S x

omit [AddCommMonoidWithOne α] in
theorem LoadsOnly.trans (h : LoadsOnly w w' S) (h' : LoadsOnly w' w'' S) : LoadsOnly w w'' S := by
  intro x hx
  rcases h' x hx with hx | hx
  · exact h x hx
  · exact Or.inr hx

omit [AddCommMonoidWithOne α] in
theorem LoadsOnly.mono (h : LoadsOnly w w' S) (hST : ∀ x, S x → T x) : LoadsOnly w w' T :=
  fun x hx => (h x hx).imp_right (hST x)

theorem add_cast_add (p : α) (i j : ℕ) : p + (i : α) + (j : α) = p + ((i + j : ℕ) : α) := by
  push_cast
  rw [add_assoc]

theorem add_cast_add_one (p : α) (i : ℕ) : p + (i : α) + 1 = p + ((i + 1 : ℕ) : α) := by
  push_cast
  rw [add_assoc]

theorem add_one_add_cast (p : α) (i : ℕ) : p + 1 + (i : α) = p + ((i + 1 : ℕ) : α) := by
  push_cast
  rw [add_assoc, add_comm 1]

theorem Within.add (h : Within (p + (i : α)) j x) (hij : i + j ≤ n) : Within p n x := by
  obtain ⟨k, hk, rfl⟩ := h
  exact ⟨i + k, by omega, add_cast_add p i k⟩

/-! ## Strings -/

/-- The bytes of a string, by their indices. -/
theorem stringAt_iff : StringAt m p s ↔
    (∀ i (h : i < s.length), m.byte (p + (i : α)) = s[i].val) ∧ m.byte (p + (s.length : α)) = 0 := by
  induction s generalizing p with
  | nil => simp [StringAt]
  | cons c s ih =>
    rw [StringAt, ih, add_one_add_cast]
    constructor
    · rintro ⟨hc, hs, hend⟩
      refine ⟨fun i hi => ?_, hend⟩
      cases i with
      | zero => simpa using hc
      | succ i =>
        rw [← add_one_add_cast]
        exact hs i (Nat.lt_of_succ_lt_succ hi)
    · rintro ⟨hs, hend⟩
      refine ⟨by simpa using hs 0 (Nat.succ_pos _), fun i hi => ?_, hend⟩
      rw [add_one_add_cast]
      exact hs (i + 1) (Nat.succ_lt_succ hi)

/-- The same bytes at the same place are the same string. -/
theorem StringAt.congr (h : StringAt m p s) (heq : ∀ x, Within p s.length x → m'.byte x = m.byte x) :
    StringAt m' p s := by
  rw [stringAt_iff] at h ⊢
  refine ⟨fun i hi => ?_, ?_⟩
  · rw [heq _ ⟨i, hi.le, rfl⟩]
    exact h.1 i hi
  · rw [heq _ ⟨s.length, le_rfl, rfl⟩]
    exact h.2

/-- The rest of a string behind its first characters. -/
theorem StringAt.drop (h : StringAt m p (tok ++ rest)) : StringAt m (p + (tok.length : α)) rest := by
  obtain ⟨hs, hend⟩ := stringAt_iff.mp h
  rw [stringAt_iff]
  simp only [add_cast_add]
  rw [List.length_append] at hend
  refine ⟨fun i hi => ?_, hend⟩
  rw [hs _ (by rw [List.length_append]; omega), List.getElem_append_right (Nat.le_add_right _ _)]
  simp

variable [DecidableEq α] [ArrayAddress α]

/-- A terminator stored behind the first characters of a string. -/
theorem StringAt.cut (h : StringAt m p (tok ++ rest)) (hlen : tok.length < 2 ^ 32) :
    StringAt (m.store8 (p + (tok.length : α)) 0) p tok := by
  obtain ⟨hs, -⟩ := stringAt_iff.mp h
  rw [stringAt_iff]
  refine ⟨fun i hi => ?_, Memory.byte_store8_same ..⟩
  rw [Memory.byte_store8_add _ _ _ hlen (by omega), if_neg (by omega),
    hs _ (by rw [List.length_append]; omega), List.getElem_append_left hi]

/-- The rest of the string is still there. -/
theorem StringAt.behind {c : CChar} (h : StringAt m p (tok ++ c :: rest))
    (hlen : tok.length + 1 + rest.length < 2 ^ 32) :
    StringAt (m.store8 (p + (tok.length : α)) 0) (p + ((tok.length + 1 : ℕ) : α)) rest := by
  rw [← List.singleton_append, ← List.append_assoc] at h
  have hrest := h.drop
  rw [List.length_append, List.length_singleton] at hrest
  refine hrest.congr ?_
  rintro x ⟨i, hi, rfl⟩
  rw [add_cast_add, Memory.byte_store8_add _ _ _ (by omega) (by omega), if_neg (by omega)]

end Generic

/-! ## One call -/

section Call

variable {w : Watched U32} {p d q : U32} {fuel left : ℕ} {c : CChar} {r : CString}

/-- The inner loop looks for the character among the delimiters and their terminator. -/
theorem span_eq (hd : StringAt w.mem d delim) (hf : delim.length < fuel) (c : U8) :
    ∃ w', span fuel w c d = some (decide (c = 0 ∨ c ∈ charBytes delim), w') ∧ w'.mem = w.mem ∧
      LoadsOnly w w' (Within d delim.length) := by
  induction fuel generalizing delim d w with
  | zero => omega
  | succ fuel ih =>
    have hloads : LoadsOnly w ⟨w.mem, d :: w.loads⟩ (Within d delim.length) := by
      intro x hx
      rcases List.mem_cons.mp hx with rfl | hx
      · exact Or.inr (within_self x _)
      · exact Or.inl hx
    cases delim with
    | nil =>
      have hend : w.mem.byte d = 0 := hd
      refine ⟨⟨w.mem, d :: w.loads⟩, ?_, rfl, hloads⟩
      rw [span]
      simp only [Watched.load, hend]
      by_cases hc : c = 0
      · subst hc
        rfl
      · have hfalse : decide (c = 0 ∨ c ∈ charBytes []) = false :=
          decide_eq_false fun h => hc (h.resolve_right List.not_mem_nil)
        rw [if_neg (Ne.symm hc), hfalse]
        rfl
    | cons y delim =>
      obtain ⟨hy, hd⟩ := hd
      rw [span]
      simp only [Watched.load, hy]
      by_cases hc : y.val = c
      · refine ⟨⟨w.mem, d :: w.loads⟩, ?_, rfl, hloads⟩
        rw [if_pos hc, ← hc]
        simp [charBytes]
      · obtain ⟨w', hw', hmem, hloads'⟩ := ih (w := ⟨w.mem, d :: w.loads⟩) hd
          (by rw [List.length_cons] at hf; omega)
        refine ⟨w', ?_, hmem, hloads.trans (hloads'.mono fun x hx => hx.succ)⟩
        rw [if_neg hc, if_pos y.property, hw']
        simp [charBytes, Ne.symm hc]

theorem mem_charBytes : c.val ∈ charBytes delim ↔ c ∈ delim :=
  List.mem_map_of_injective Subtype.val_injective

/-- A round of the outer loop. -/
theorem strsepFrom_round (hd : StringAt w.mem d delim) (hf : delim.length < fuel) (left : ℕ) (q : U32) :
    ∃ w', w'.mem = w.mem ∧ LoadsOnly w w' (fun x => x = q ∨ Within d delim.length x) ∧
      strsepFrom fuel d (left + 1) w q =
        if w.mem.byte q = 0 ∨ w.mem.byte q ∈ charBytes delim then
          if w.mem.byte q = 0 then some (nullptr, w') else some (q + 1, w'.store q 0)
        else strsepFrom fuel d left w' (q + 1) := by
  obtain ⟨w', hw', hmem, hloads⟩ := span_eq (w := ⟨w.mem, q :: w.loads⟩) hd hf (w.mem.byte q)
  refine ⟨w', hmem, ?_, ?_⟩
  · intro x hx
    rcases hloads x hx with hx | hx
    · rcases List.mem_cons.mp hx with hx | hx
      · exact Or.inr (Or.inl hx)
      · exact Or.inl hx
    · exact Or.inr (Or.inr hx)
  · rw [strsepFrom]
    simp only [Watched.load, hw', Option.bind_eq_bind, Option.bind_some, decide_eq_true_eq]
    rfl

/-- The loop goes over characters that are not delimiters. -/
theorem strsepFrom_skip (hs : StringAt w.mem q (tok ++ rest)) (hd : StringAt w.mem d delim)
    (htok : ∀ c ∈ tok, c ∉ delim) (hf : delim.length < fuel) (left : ℕ) :
    ∃ w', w'.mem = w.mem ∧ LoadsOnly w w' (fun x => Within q tok.length x ∨ Within d delim.length x) ∧
      strsepFrom fuel d (left + tok.length) w q = strsepFrom fuel d left w' (q + (tok.length : U32)) := by
  induction tok generalizing q w with
  | nil =>
    refine ⟨w, rfl, fun x hx => Or.inl hx, ?_⟩
    simp only [List.length_nil, Nat.cast_zero, add_zero]
  | cons c tok ih =>
    obtain ⟨hc, hs⟩ := hs
    rw [List.forall_mem_cons] at htok
    obtain ⟨w1, hmem1, hloads1, hround⟩ := strsepFrom_round hd hf (left + tok.length) q
    obtain ⟨w', hmem, hloads, hrest⟩ := ih (by rwa [hmem1]) (by rwa [hmem1]) htok.2
    refine ⟨w', hmem.trans hmem1, ?_, ?_⟩
    · refine (hloads1.mono ?_).trans (hloads.mono ?_)
      · rintro x (rfl | hx)
        · exact Or.inl (within_self x _)
        · exact Or.inr hx
      · intro x hx
        exact hx.imp_left Within.succ
    · rw [hc] at hround
      rw [List.length_cons, ← Nat.add_assoc, hround, if_neg, hrest, Nat.cast_succ, add_assoc, add_comm 1]
      rw [not_or, mem_charBytes]
      exact ⟨c.property, htok.1⟩

/-- The last piece: there is no delimiter left. -/
theorem strsep_last (hs : StringAt w.mem q s) (hd : StringAt w.mem d delim) (hq : q ≠ nullptr)
    (htok : ∀ c ∈ s, c ∉ delim) (hf : s.length + delim.length < fuel) :
    ∃ w', strsep fuel w q d = some (q, nullptr, w') ∧ w'.mem = w.mem ∧
      LoadsOnly w w' (fun x => Within q s.length x ∨ Within d delim.length x) := by
  obtain ⟨left, rfl⟩ : ∃ k, fuel = k + 1 + s.length := ⟨fuel - 1 - s.length, by omega⟩
  have hs' : StringAt w.mem q (s ++ []) := by rwa [List.append_nil]
  have hfuel : delim.length < left + 1 + s.length := by omega
  obtain ⟨w1, hmem1, hloads1, hskip⟩ := strsepFrom_skip hs' hd htok hfuel (left + 1)
  have hend : w1.mem.byte (q + (s.length : U32)) = 0 := by
    rw [hmem1]
    exact hs'.drop
  rw [← hmem1] at hd
  obtain ⟨w', hmem, hloads, hround⟩ := strsepFrom_round hd hfuel left (q + (s.length : U32))
  rw [hend, if_pos (Or.inl rfl), if_pos rfl] at hround
  refine ⟨w', ?_, hmem.trans hmem1, hloads1.trans (hloads.mono ?_)⟩
  · rw [strsep, if_neg hq, hskip, hround]
    rfl
  · rintro x (rfl | hx)
    · exact Or.inl ⟨s.length, le_rfl, rfl⟩
    · exact Or.inr hx

/-- A piece in front of a delimiter, which is cut off. -/
theorem strsep_cut (hs : StringAt w.mem q (tok ++ c :: r)) (hd : StringAt w.mem d delim) (hq : q ≠ nullptr)
    (htok : ∀ c ∈ tok, c ∉ delim) (hc : c ∈ delim) (hf : (tok ++ c :: r).length + delim.length < fuel) :
    ∃ w', strsep fuel w q d = some (q, q + ((tok.length + 1 : ℕ) : U32), w') ∧
      w'.mem = w.mem.store8 (q + (tok.length : U32)) 0 ∧
      LoadsOnly w w' (fun x => Within q (tok ++ c :: r).length x ∨ Within d delim.length x) := by
  rw [List.length_append] at hf
  obtain ⟨left, rfl⟩ : ∃ k, fuel = k + 1 + tok.length := ⟨fuel - 1 - tok.length, by omega⟩
  have hfuel : delim.length < left + 1 + tok.length := by omega
  obtain ⟨w1, hmem1, hloads1, hskip⟩ := strsepFrom_skip hs hd htok hfuel (left + 1)
  have hchar : w1.mem.byte (q + (tok.length : U32)) = c.val := by
    rw [hmem1]
    exact hs.drop.1
  rw [← hmem1] at hd
  obtain ⟨w', hmem, hloads, hround⟩ := strsepFrom_round hd hfuel left (q + (tok.length : U32))
  rw [hchar, if_pos (Or.inr (mem_charBytes.mpr hc)), if_neg c.property] at hround
  have hlen : tok.length ≤ (tok ++ c :: r).length := by
    rw [List.length_append]
    omega
  refine ⟨w'.store (q + (tok.length : U32)) 0, ?_, ?_, (hloads1.mono ?_).trans (hloads.mono ?_)⟩
  · rw [strsep, if_neg hq, hskip, hround, add_cast_add_one]
    rfl
  · rw [Watched.store, hmem, hmem1]
  · rintro x (⟨i, hi, rfl⟩ | hx)
    · exact Or.inl ⟨i, hi.trans hlen, rfl⟩
    · exact Or.inr hx
  · rintro x (rfl | hx)
    · exact Or.inl ⟨tok.length, hlen, rfl⟩
    · exact Or.inr hx

/-- A call of `strsep` on a string in memory does what it does on the characters: the token is cut off in place,
    and `*stringp` points to what is left. -/
theorem strsep_refines (hs : StringAt w.mem q s) (hlen : s.length < 2 ^ 32) (hd : StringAt w.mem d delim)
    (hq : q ≠ nullptr) (hf : s.length + delim.length < fuel) :
    ∃ next w', strsep fuel w q d = some (q, next, w') ∧ StringAt w'.mem q (strsepOf delim s).1 ∧
      match (strsepOf delim s).2 with
      | none => next = nullptr
      | some r => StringAt w'.mem next r := by
  rcases strsepOf_cases delim s with ⟨heq, htok⟩ | ⟨tok, c, r, rfl, htok, hc, heq⟩
  · obtain ⟨w', hcall, hmem, -⟩ := strsep_last hs hd hq htok hf
    refine ⟨nullptr, w', hcall, ?_, ?_⟩
    · rw [heq, hmem]
      exact hs
    · rw [heq]
  · obtain ⟨w', hcall, hmem, -⟩ := strsep_cut hs hd hq htok hc hf
    rw [List.length_append, List.length_cons] at hlen
    refine ⟨_, w', hcall, ?_, ?_⟩
    · rw [heq, hmem]
      exact hs.cut (by omega)
    · rw [heq, hmem]
      exact hs.behind (by omega)

end Call

/-! ## All calls -/

/-- A delimiter of a string is the first one, or in what is behind it. -/
theorem split_cases {c e : CChar} {r l r' : CString} (h : tok ++ c :: r = l ++ e :: r')
    (htok : ∀ c ∈ tok, c ∉ delim) (he : e ∈ delim) :
    l = tok ∨ ∃ l', l = tok ++ c :: l' ∧ r = l' ++ e :: r' := by
  rcases List.append_eq_append_iff.mp h with ⟨a, rfl, ha⟩ | ⟨a, rfl, ha⟩
  · cases a with
    | nil => exact Or.inl (List.append_nil tok)
    | cons d a =>
      obtain ⟨rfl, hr⟩ := List.cons.inj ha
      exact Or.inr ⟨a, rfl, hr⟩
  · cases a with
    | nil => exact Or.inl (List.append_nil l).symm
    | cons d a =>
      obtain ⟨rfl, -⟩ := List.cons.inj ha
      exact absurd he (htok e (by simp))

theorem piecesAt_eq (delim s : CString) : piecesAt delim s =
    Tiling.positions (fun piece => piece.length + 1) 0 (s.splitOnP (· ∈ delim)) := by
  simp only [piecesAt, List.contains_eq_mem]

section Run

variable {m : Ram} {w : Watched U32} {p d q : U32} {fuel calls : ℕ}

/-- A string without delimiters is its only piece. -/
theorem takenApart_last (hs : StringAt m q s) (htok : ∀ c ∈ s, c ∉ delim) :
    TakenApart m m q s delim [(q, m)] := by
  have hpieces : piecesAt delim s = [(0, s)] := by
    rw [piecesAt_eq, List.splitOnP_eq_singleton fun c hc => decide_eq_false (htok c hc)]
    rfl
  refine ⟨?_, ?_, fun x _ => rfl⟩
  · rw [hpieces]
    exact .cons ⟨(add_zero q).symm, hs, hs⟩ .nil
  · rintro l c r rfl hc
    exact absurd hc (htok c (by simp))

/-- The pieces of a string with a delimiter: the one in front of it, and those behind it. -/
theorem piecesAt_cut {c : CChar} {r : CString} (htok : ∀ c ∈ tok, c ∉ delim) (hc : c ∈ delim) :
    piecesAt delim (tok ++ c :: r) =
      (0, tok) :: (piecesAt delim r).map fun x => (tok.length + 1 + x.1, x.2) := by
  rw [piecesAt_eq, piecesAt_eq, List.splitOnP_append_cons_of_forall_mem (fun c hc => decide_eq_false (htok c hc)) c
    (decide_eq_true hc), Tiling.positions_cons, Nat.add_comm 0, Tiling.positions_add]

/-- The piece in front of a delimiter is cut off, and the rest is taken apart. -/
theorem takenApart_cut {m' : Ram} {c : CChar} {r : CString} {toks : List (U32 × Ram)}
    (hs : StringAt m q (tok ++ c :: r)) (hlen : (tok ++ c :: r).length < 2 ^ 32) (htok : ∀ c ∈ tok, c ∉ delim)
    (hc : c ∈ delim)
    (h : TakenApart (m.store8 (q + (tok.length : U32)) 0) m' (q + ((tok.length + 1 : ℕ) : U32)) r delim toks) :
    TakenApart m m' q (tok ++ c :: r) delim ((q, m.store8 (q + (tok.length : U32)) 0) :: toks) := by
  obtain ⟨htokens, hcut, hkept⟩ := h
  rw [List.length_append, List.length_cons] at hlen
  -- The rest of the run leaves the first piece and its terminator alone.
  have hfirst : ∀ x, Within q tok.length x → m'.byte x = (m.store8 (q + (tok.length : U32)) 0).byte x := by
    rintro x ⟨i, hi, rfl⟩
    refine hkept _ ?_
    rintro l e r' rfl - heq
    rw [add_cast_add] at heq
    rw [List.length_append] at hlen
    have := ArrayAddress.add_cast_inj q _ _ (by omega) (by omega) heq
    omega
  have htok' := hs.cut (by omega)
  constructor
  · rw [piecesAt_cut htok hc]
    refine .cons ⟨(add_zero q).symm, htok', htok'.congr hfirst⟩ ?_
    rw [List.forall₂_map_right_iff]
    refine htokens.imp ?_
    rintro t x ⟨h1, h2⟩
    exact ⟨by rw [h1, add_cast_add], h2⟩
  · intro l e r' heq he
    rcases split_cases heq htok he with rfl | ⟨l', rfl, rfl⟩
    · rw [hfirst _ ⟨l.length, le_rfl, rfl⟩, Memory.byte_store8_same]
    · have hzero := hcut l' e r' rfl he
      rwa [add_cast_add, show tok.length + 1 + l'.length = (tok ++ c :: l').length by
        rw [List.length_append, List.length_cons]; omega] at hzero
  · intro x hx
    rw [hkept x, Memory.byte_store8_of_ne (hx tok c r rfl hc)]
    rintro l e r' rfl he heq
    refine hx (tok ++ c :: l) e r' (by simp) he ?_
    rw [heq, add_cast_add, List.length_append, List.length_cons]
    congr 2
    omega

/-- The store to a delimiter does not meet the delimiters' own string. -/
theorem Apart.stringAt_store {c : CChar} {r : CString} (h : Apart q (tok ++ c :: r) d delim) (hc : c ∈ delim)
    (hd : StringAt m d delim) : StringAt (m.store8 (q + (tok.length : U32)) 0) d delim := by
  refine hd.congr fun x hx => Memory.byte_store8_of_ne ?_
  rintro rfl
  exact h tok c r rfl hc hx

theorem Apart.behind {c : CChar} {r : CString} (h : Apart q (tok ++ c :: r) d delim) :
    Apart (q + ((tok.length + 1 : ℕ) : U32)) r d delim := by
  rintro l e r' rfl he hx
  refine h (tok ++ c :: l) e r' (by simp) he ?_
  rwa [add_cast_add, show tok.length + 1 + l.length = (tok ++ c :: l).length by
    rw [List.length_append, List.length_cons]; omega] at hx

/-- A call of `strsep` on null. -/
theorem strsepAll_null (fuel calls : ℕ) (w : Watched U32) (d : U32) :
    strsepAll fuel d (calls + 1) w nullptr = some ([], w) := rfl

theorem strsepAll_eq (hs : StringAt w.mem q s) (hd : StringAt w.mem d delim) (hq : 0 < q.toNat)
    (hlen : q.toNat + s.length < 2 ^ 32) (hdisj : Apart q s d delim)
    (hf : s.length + delim.length < fuel) (hcalls : s.length + 1 < calls) :
    ∃ toks w', strsepAll fuel d calls w q = some (toks, w') ∧ TakenApart w.mem w'.mem q s delim toks ∧
      LoadsOnly w w' fun x => Within q s.length x ∨ Within d delim.length x := by
  have hne : q ≠ nullptr := by
    rintro rfl
    exact absurd hq (lt_irrefl 0)
  induction calls generalizing s q w with
  | zero => omega
  | succ calls ih =>
    rw [strsepAll]
    rcases strsepOf_cases delim s with ⟨-, htok⟩ | ⟨tok, c, r, rfl, htok, hc, -⟩
    · obtain ⟨w1, hcall, hmem, hloads⟩ := strsep_last hs hd hne htok hf
      obtain ⟨calls, rfl⟩ : ∃ k, calls = k + 1 := ⟨calls - 1, by omega⟩
      refine ⟨[(q, w1.mem)], w1, ?_, ?_, hloads⟩
      · rw [hcall]
        simp only [Option.bind_eq_bind, Option.bind_some, if_neg hne, strsepAll_null]
        rfl
      · rw [hmem]
        exact takenApart_last hs htok
    · obtain ⟨w1, hcall, hmem, hloads⟩ := strsep_cut hs hd hne htok hc hf
      have hwhole : (tok ++ c :: r).length = tok.length + 1 + r.length := by
        rw [List.length_append, List.length_cons]
        omega
      rw [hwhole] at hlen hf hcalls
      have hq' : (q + ((tok.length + 1 : ℕ) : U32)).toNat = q.toNat + (tok.length + 1) :=
        BitVec.toNat_add_cast (by omega)
      have hrest : ∀ x, Within (q + ((tok.length + 1 : ℕ) : U32)) r.length x → Within q (tok ++ c :: r).length x :=
        fun x hx => hx.add (by omega)
      -- The store meets neither the rest of the string nor the delimiters.
      have hs' : StringAt w1.mem (q + ((tok.length + 1 : ℕ) : U32)) r := by
        rw [hmem]
        exact hs.behind (by omega)
      have hd' : StringAt w1.mem d delim := by
        rw [hmem]
        exact hdisj.stringAt_store hc hd
      obtain ⟨toks, w', hcalls', hapart, hloads'⟩ := ih hs' hd' (by omega) (by omega)
        hdisj.behind (by omega) (by omega)
        (fun hzero => absurd (congrArg BitVec.toNat hzero) (by rw [hq']; simp [nullptr]))
      refine ⟨(q, w1.mem) :: toks, w', ?_, ?_, hloads.trans (hloads'.mono fun x hx => hx.imp_left (hrest x))⟩
      · rw [hcall]
        simp only [Option.bind_eq_bind, Option.bind_some, if_neg hne, hcalls']
        rfl
      · rw [hmem] at hapart ⊢
        exact takenApart_cut hs (by omega) htok hc hapart

/-- `strsep` takes a string apart without loss: called until it returns null it gives the pieces between the
    delimiters, one more than there are delimiters, loads only from the string and the delimiters, and changes
    only the delimiters; with a single delimiter the pieces joined by it are the string. -/
theorem strsep_tokenises {s delim : CString} (hs : StringObject m p s) (hd : StringAt m d delim)
    (hdisj : Apart p s d delim) (hf : s.length + delim.length < fuel) (hcalls : s.length + 1 < calls) :
    ∃ toks w, strsepAll fuel d calls ⟨m, []⟩ p = some (toks, w) ∧ TakenApart m w.mem p s delim toks ∧
      toks.length = s.countP (· ∈ delim) + 1 ∧
      (∀ x ∈ w.loads, Within p s.length x ∨ Within d delim.length x) ∧
      ∀ c, delim = [c] → [c].intercalate ((piecesAt delim s).map Prod.snd) = s := by
  have hpos : 0 < p.toNat := by
    rcases Nat.eq_zero_or_pos p.toNat with h | h
    · exact absurd (BitVec.eq_of_toNat_eq h) hs.ne_nullptr
    · exact h
  obtain ⟨toks, w, hrun, hapart, hloads⟩ :=
    strsepAll_eq (w := ⟨m, []⟩) hs.stringAt hd hpos hs.contiguous hdisj hf hcalls
  have hsnd : (piecesAt delim s).map Prod.snd = s.splitOnP (· ∈ delim) := by
    rw [piecesAt_eq, Tiling.map_snd_positions]
  refine ⟨toks, w, hrun, hapart, ?_, fun x hx => (hloads x hx).resolve_left List.not_mem_nil, ?_⟩
  · rw [hapart.tokens.length_eq, ← length_splitOnP, ← hsnd, List.length_map]
  · rintro c rfl
    rw [hsnd, splitOnP_singleton, List.intercalate_splitOn]

/-- A memory with the string `"/a//"` at 16 and `"/"` at 32. -/
def slashes : Ram :=
  { byte := fun x => if x = 32 then 0x2F else [0x2F, 0x61, 0x2F, 0x2F].getD (x.toNat - 16) 0 }

theorem strsep_tokenises_slashes :
    ∃ toks w, strsepAll 6 32 6 ⟨slashes, []⟩ 16 = some (toks, w) ∧ toks.length = 4 ∧
      TakenApart slashes w.mem 16 [slash, ⟨0x61, by decide⟩, slash, slash] [slash] toks := by
  have hapart : Apart (16 : U32) [slash, ⟨0x61, by decide⟩, slash, slash] 32 [slash] := by
    rintro l c r heq - ⟨i, hi, hx⟩
    have hl := congrArg List.length heq
    simp only [List.length_append, List.length_cons, List.length_nil] at hl hi
    have hnat := congrArg BitVec.toNat hx
    rw [BitVec.toNat_add_cast (by simp; omega), BitVec.toNat_add_cast (by simp; omega)] at hnat
    simp at hnat
    omega
  have hs : StringObject slashes 16 [slash, ⟨0x61, by decide⟩, slash, slash] :=
    ⟨⟨rfl, rfl, rfl, rfl, rfl⟩, by decide, by decide⟩
  have hdelim : StringAt slashes 32 [slash] := ⟨rfl, rfl⟩
  obtain ⟨toks, w, hrun, htoks, hlen, -⟩ :=
    strsep_tokenises hs hdelim hapart (show 5 < 6 by decide) (show 5 < 6 by decide)
  exact ⟨toks, w, hrun, hlen, htoks⟩

end Run

end RamString

end Pros
