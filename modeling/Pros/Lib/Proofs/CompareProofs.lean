import Pros.Lib.RamString

/-!
# `strcmp` is the order of strings

On the characters of two strings `strcmp` has the sign of their lexicographic order by unsigned bytes, a proper
prefix first. In memory it goes through both strings at once, up to the first difference or the end of the first.
-/

namespace Pros

/-! ## The order -/

/-- The bytes of a string, without its terminator. -/
def charBytes (s : CString) : List U8 := s.map Subtype.val

theorem toNat_char_pos (c : CChar) : 0 < c.val.toNat := by
  rcases Nat.eq_zero_or_pos c.val.toNat with h | h
  · exact absurd (BitVec.eq_of_toNat_eq h) c.property
  · exact h

theorem toNat_char_inj {c d : CChar} : c.val.toNat = d.val.toNat ↔ c = d := by
  constructor
  · intro h
    exact Subtype.ext (BitVec.eq_of_toNat_eq h)
  · rintro rfl
    rfl

theorem strcmp_eq_zero {a b : CString} : strcmp a b = 0 ↔ a = b := by
  induction a generalizing b with
  | nil =>
    cases b with
    | nil => simp [strcmp]
    | cons y b =>
      have hy := toNat_char_pos y
      simp [strcmp, hy.ne']
  | cons x a ih =>
    cases b with
    | nil =>
      have hx := toNat_char_pos x
      simp [strcmp, hx.ne']
    | cons y b =>
      rw [strcmp]
      by_cases hxy : x = y
      · subst hxy
        simp [ih]
      · rw [if_pos hxy]
        have hne := toNat_char_inj.not.mpr hxy
        constructor
        · intro h
          omega
        · intro h
          exact absurd (List.cons.inj h).1 hxy

theorem strcmp_comm (a b : CString) : strcmp a b = -strcmp b a := by
  induction a generalizing b with
  | nil => cases b <;> simp [strcmp]
  | cons x a ih =>
    cases b with
    | nil => simp [strcmp]
    | cons y b =>
      rw [strcmp, strcmp]
      by_cases hxy : x = y
      · rw [if_neg (not_not.mpr hxy), if_neg (not_not.mpr hxy.symm)]
        exact ih b
      · rw [if_pos hxy, if_pos fun h => hxy h.symm]
        omega

theorem strcmp_neg_iff {a b : CString} : strcmp a b < 0 ↔ charBytes a < charBytes b := by
  unfold charBytes
  induction a generalizing b with
  | nil =>
    cases b with
    | nil => simp [strcmp]
    | cons y b =>
      have hy := toNat_char_pos y
      rw [strcmp, List.map_nil, List.map_cons]
      exact iff_of_true (by omega) (List.nil_lt_cons _ _)
  | cons x a ih =>
    cases b with
    | nil =>
      rw [strcmp, List.map_nil, List.map_cons]
      exact iff_of_false (by omega) (List.not_lt_nil _)
    | cons y b =>
      rw [strcmp, List.map_cons, List.map_cons, List.cons_lt_cons_iff, BitVec.lt_def]
      by_cases hxy : x = y
      · subst hxy
        rw [if_neg (not_not.mpr rfl), ih]
        simp
      · rw [if_pos hxy]
        constructor
        · intro h
          exact Or.inl (by omega)
        · rintro (h | ⟨h, -⟩)
          · omega
          · exact absurd (Subtype.ext h) hxy

theorem strcmp_trans {a b c : CString} (hab : strcmp a b < 0) (hbc : strcmp b c < 0) : strcmp a c < 0 := by
  rw [strcmp_neg_iff] at hab hbc ⊢
  exact List.lt_trans hab hbc

/-! ## Heads -/

/-- The first byte of a string, which is the terminator when there are no characters. -/
def headByte : CString → U8
  | [] => 0
  | c :: _ => c.val

/-- Two strings with different first bytes, or without characters, are told apart by these. -/
theorem strcmp_heads {a b : CString} (h : headByte a = 0 ∨ headByte a ≠ headByte b) :
    strcmp a b = ((headByte a).toNat : ℤ) - (headByte b).toNat := by
  cases a with
  | nil => cases b <;> rfl
  | cons x a =>
    cases b with
    | nil => rfl
    | cons y b =>
      have hne := h.resolve_left x.property
      rw [strcmp, if_pos fun hxy => hne (congrArg Subtype.val hxy)]
      rfl

/-- Two strings that begin with the same character. -/
theorem exists_tails {a b : CString} (h0 : headByte a ≠ 0) (h : headByte a = headByte b) :
    ∃ c a' b', a = c :: a' ∧ b = c :: b' := by
  cases a with
  | nil => exact absurd rfl h0
  | cons x a =>
    cases b with
    | nil => exact absurd h x.property
    | cons y b =>
      obtain rfl : x = y := Subtype.ext h
      exact ⟨x, a, b, rfl, rfl⟩

/-! ## In memory -/

namespace RamString

section Generic

variable {α : Type} [AddCommMonoidWithOne α] {m : Memory α} {p q x : α} {a b s : CString} {n fuel : ℕ}
  {w : Watched α}

theorem StringAt.byte (h : StringAt m p s) : m.byte p = headByte s := by
  cases s with
  | nil => exact h
  | cons c s => exact h.1

theorem within_self (p : α) (n : ℕ) : Within p n p := ⟨0, Nat.zero_le n, by simp⟩

theorem Within.succ (h : Within (p + 1) n x) : Within p (n + 1) x := by
  obtain ⟨i, hi, rfl⟩ := h
  refine ⟨i + 1, by omega, ?_⟩
  push_cast
  rw [add_assoc, add_comm 1]

/-- The comparison ends at the end of the first string or at a difference. -/
theorem strcmp_stop (fuel : ℕ) (h : w.mem.byte p = 0 ∨ w.mem.byte p ≠ w.mem.byte q) :
    ∃ w', strcmp (fuel + 1) w p q = some (((w.mem.byte p).toNat : ℤ) - (w.mem.byte q).toNat, w') ∧
      w'.mem = w.mem ∧ ∀ x ∈ w'.loads, x ∈ w.loads ∨ x = p ∨ x = q := by
  by_cases h0 : w.mem.byte p = 0
  · refine ⟨⟨w.mem, q :: p :: p :: w.loads⟩, ?_, rfl, ?_⟩
    · rw [strcmp]
      simp only [Watched.load, h0, ne_eq, not_true_eq_false, if_false]
      rw [difference]
      simp only [Watched.load, h0]
    · intro x hx
      simp only [List.mem_cons] at hx
      tauto
  · have hne := h.resolve_left h0
    refine ⟨⟨w.mem, q :: p :: q :: p :: p :: w.loads⟩, ?_, rfl, ?_⟩
    · rw [strcmp]
      simp only [Watched.load, h0, hne, ne_eq, not_false_eq_true, if_true]
      rfl
    · intro x hx
      simp only [List.mem_cons] at hx
      tauto

/-- It goes on behind two equal characters. -/
theorem strcmp_succ (fuel : ℕ) (h0 : w.mem.byte p ≠ 0) (h : w.mem.byte p = w.mem.byte q) :
    strcmp (fuel + 1) w p q = strcmp fuel ⟨w.mem, q :: p :: p :: w.loads⟩ (p + 1) (q + 1) := by
  rw [strcmp]
  simp only [Watched.load, h0, ← h, ne_eq, not_false_eq_true, not_true_eq_false, if_true, if_false]

/-- `strcmp` goes through the two strings and stays inside of them. -/
theorem strcmp_eq (ha : StringAt w.mem p a) (hb : StringAt w.mem q b) (hf : a.length < fuel) :
    ∃ w', strcmp fuel w p q = some (Pros.strcmp a b, w') ∧ w'.mem = w.mem ∧
      ∀ x ∈ w'.loads, x ∈ w.loads ∨ Within p a.length x ∨ Within q b.length x := by
  induction fuel generalizing a b p q w with
  | zero => omega
  | succ fuel ih =>
    by_cases h : headByte a = 0 ∨ headByte a ≠ headByte b
    · obtain ⟨w', hw', hmem, hloads⟩ := strcmp_stop fuel (w := w) (p := p) (q := q) (by
        rw [ha.byte, hb.byte]
        exact h)
      refine ⟨w', ?_, hmem, ?_⟩
      · rw [hw', strcmp_heads h, ha.byte, hb.byte]
      · intro x hx
        rcases hloads x hx with hx | rfl | rfl
        · exact Or.inl hx
        · exact Or.inr (Or.inl (within_self x _))
        · exact Or.inr (Or.inr (within_self x _))
    · rw [not_or, not_not] at h
      obtain ⟨c, a, b, rfl, rfl⟩ := exists_tails h.1 h.2
      obtain ⟨w', hw', hmem, hloads⟩ := ih (w := ⟨w.mem, q :: p :: p :: w.loads⟩) ha.2 hb.2
        (by rw [List.length_cons] at hf; omega)
      refine ⟨w', ?_, hmem, ?_⟩
      · rw [strcmp_succ fuel (by rw [ha.byte]; exact h.1) (by rw [ha.byte, hb.byte]; exact h.2), hw',
          Pros.strcmp, if_neg (not_not.mpr rfl)]
      · intro x hx
        rcases hloads x hx with hx | hx | hx
        · simp only [List.mem_cons] at hx
          rcases hx with rfl | rfl | rfl | hx
          · exact Or.inr (Or.inr (within_self x _))
          · exact Or.inr (Or.inl (within_self x _))
          · exact Or.inr (Or.inl (within_self x _))
          · exact Or.inl hx
        · exact Or.inr (Or.inl hx.succ)
        · exact Or.inr (Or.inr hx.succ)

theorem compares (ha : StringAt m p a) (hb : StringAt m q b) : Compares m p a q b (Pros.strcmp a b) := by
  intro fuel hf
  obtain ⟨w, hw, hmem, hloads⟩ := strcmp_eq (w := ⟨m, []⟩) ha hb hf
  exact ⟨w, hw, hmem, fun x hx => (hloads x hx).resolve_left List.not_mem_nil⟩

end Generic

/-- `strcmp` is the lexicographic order of unsigned bytes: it returns, loads from its two strings only, and has
    the sign of their order. -/
theorem strcmp_lexicographic {m : Ram} {p q r : U32} {a b c : CString} (ha : StringAt m p a)
    (hb : StringAt m q b) (hc : StringAt m r c) :
    ∃ ab ba bc ac : ℤ, Compares m p a q b ab ∧ Compares m q b p a ba ∧ Compares m q b r c bc ∧
      Compares m p a r c ac ∧ (ab = 0 ↔ a = b) ∧ (ab < 0 ↔ charBytes a < charBytes b) ∧ ab = -ba ∧
      (ab < 0 → bc < 0 → ac < 0) ∧ (ab ≤ 0 → bc ≤ 0 → ac ≤ 0) := by
  refine ⟨_, _, _, _, compares ha hb, compares hb ha, compares hb hc, compares ha hc, strcmp_eq_zero,
    strcmp_neg_iff, strcmp_comm a b, strcmp_trans, ?_⟩
  intro hab hbc
  rcases lt_or_eq_of_le hab with hlt | heq
  · rcases lt_or_eq_of_le hbc with hlt' | heq'
    · exact (strcmp_trans hlt hlt').le
    · rw [strcmp_eq_zero.mp heq'] at hab
      exact hab
  · rw [strcmp_eq_zero.mp heq]
    exact hbc

/-- A memory with the strings `"a"`, `"ab"` and one of the byte `0xE1`. -/
def threeStrings : Ram := { byte := fun x => [0x61, 0, 0x61, 0x62, 0, 0xE1].getD x.toNat 0 }

theorem strcmp_lexicographic_three :
    ∃ ab ba bc ac : ℤ, Compares threeStrings 0 [⟨0x61, by decide⟩] 2 [⟨0x61, by decide⟩, ⟨0x62, by decide⟩] ab ∧
      Compares threeStrings 2 [⟨0x61, by decide⟩, ⟨0x62, by decide⟩] 0 [⟨0x61, by decide⟩] ba ∧
      Compares threeStrings 2 [⟨0x61, by decide⟩, ⟨0x62, by decide⟩] 5 [⟨0xE1, by decide⟩] bc ∧
      Compares threeStrings 0 [⟨0x61, by decide⟩] 5 [⟨0xE1, by decide⟩] ac ∧ ab < 0 ∧ ab = -ba := by
  obtain ⟨ab, ba, bc, ac, h1, h2, h3, h4, -, hneg, hcomm, -⟩ :=
    strcmp_lexicographic (m := threeStrings) (p := 0) (q := 2) (r := 5) (a := [⟨0x61, by decide⟩])
      (b := [⟨0x61, by decide⟩, ⟨0x62, by decide⟩]) (c := [⟨0xE1, by decide⟩]) ⟨rfl, rfl⟩ ⟨rfl, rfl, rfl⟩
      ⟨rfl, rfl⟩
  exact ⟨ab, ba, bc, ac, h1, h2, h3, h4, hneg.mpr (by decide), hcomm⟩

end RamString

end Pros
