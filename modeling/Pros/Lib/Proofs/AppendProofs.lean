import Pros.Lib.Proofs.TokenProofs

/-!
# `strlen`, `strcpy` and `strcat` in memory

`strcat` puts its source behind the string that is there, terminator included, and stores nowhere else.
-/

namespace Pros

namespace RamString

section Strlen

variable {α : Type} [AddCommMonoidWithOne α] {m : Memory α} {p : α} {s : CString} {fuel : ℕ}

/-- The loop counts the characters that are left. -/
theorem strlenFrom_eq (h : StringAt m p s) (hlen : s.length < 2 ^ 32) {k : ℕ} (hk : k ≤ s.length)
    (hf : s.length < fuel + k) :
    strlenFrom m p fuel (BitVec.ofNat 32 k) = some (BitVec.ofNat 32 s.length) := by
  obtain ⟨hs, hend⟩ := stringAt_iff.mp h
  induction fuel generalizing k with
  | zero => omega
  | succ fuel ih =>
    rw [strlenFrom, BitVec.toNat_ofNat, Nat.mod_eq_of_lt (by omega)]
    rcases Nat.lt_or_ge k s.length with hlt | hge
    · rw [hs k hlt, if_pos s[k].property, show BitVec.ofNat 32 k + 1 = BitVec.ofNat 32 (k + 1) from
        (BitVec.ofNat_add k 1).symm]
      exact ih (by omega) (by omega)
    · obtain rfl : k = s.length := by omega
      rw [hend, if_neg (not_not.mpr rfl)]

theorem strlen_eq (h : StringAt m p s) (hlen : s.length < 2 ^ 32) (hf : s.length < fuel) :
    strlen fuel m p = some (BitVec.ofNat 32 s.length) :=
  strlenFrom_eq h hlen (Nat.zero_le _) hf

end Strlen

section Strcat

variable {α : Type} [AddCommMonoidWithOne α] [DecidableEq α] {m : Memory α} {p x : α} {s src : CString} {fuel : ℕ}

omit [DecidableEq α] in
theorem within_zero : Within p 0 x ↔ x = p := by
  constructor
  · rintro ⟨i, hi, rfl⟩
    obtain rfl := Nat.le_zero.mp hi
    simp
  · rintro rfl
    exact ⟨0, le_rfl, by simp⟩

omit [DecidableEq α] in
theorem within_succ {n : ℕ} : Within p (n + 1) x ↔ x = p ∨ Within (p + 1) n x := by
  constructor
  · rintro ⟨_ | i, hi, rfl⟩
    · exact Or.inl (by simp)
    · exact Or.inr ⟨i, by omega, (add_one_add_cast p i).symm⟩
  · rintro (rfl | ⟨i, hi, rfl⟩)
    · exact ⟨0, by omega, by simp⟩
    · exact ⟨i + 1, by omega, add_one_add_cast p i⟩

theorem byte_strcpy_of_notMem (h : ¬ Within p src.length x) : (strcpy m p src).byte x = m.byte x := by
  induction src generalizing m p with
  | nil =>
    exact Memory.byte_store8_of_ne fun hx => h (within_zero.mpr hx)
  | cons c src ih =>
    rw [List.length_cons, within_succ, not_or] at h
    rw [strcpy, ih h.2]
    exact Memory.byte_store8_of_ne h.1

/-- The addresses that `strcpy` stores to. -/
theorem mem_written_strcpy : x ∈ (strcpy m p src).written ↔ x ∈ m.written ∨ Within p src.length x := by
  induction src generalizing m p with
  | nil =>
    rw [strcpy, Memory.written_store8, List.mem_cons, List.length_nil, within_zero]
    exact or_comm
  | cons c src ih =>
    rw [strcpy, ih, Memory.written_store8, List.mem_cons, List.length_cons, within_succ, or_assoc]
    exact or_left_comm

omit [DecidableEq α] in
/-- Characters in front of a string. -/
theorem stringAt_append (h : ∀ i (hi : i < s.length), m.byte (p + (i : α)) = s[i].val)
    (hsrc : StringAt m (p + (s.length : α)) src) : StringAt m p (s ++ src) := by
  induction s generalizing p with
  | nil => simpa using hsrc
  | cons c s ih =>
    refine ⟨by simpa using h 0 (Nat.succ_pos _), ih (fun i hi => ?_) ?_⟩
    · rw [add_one_add_cast]
      exact h (i + 1) (Nat.succ_lt_succ hi)
    · rwa [add_one_add_cast]

variable [ArrayAddress α]

theorem stringAt_strcpy (m : Memory α) (p : α) (hlen : src.length < 2 ^ 32) : StringAt (strcpy m p src) p src := by
  induction src generalizing m p with
  | nil => exact Memory.byte_store8_same ..
  | cons c src ih =>
    have hlen' : src.length + 1 < 2 ^ 32 := hlen
    refine ⟨?_, ih _ (p + 1) (by omega)⟩
    rw [strcpy, byte_strcpy_of_notMem, Memory.byte_store8_same]
    rintro ⟨i, hi, hp⟩
    have hself : p + ((0 : ℕ) : α) = p + ((i + 1 : ℕ) : α) := by
      rw [Nat.cast_zero, add_zero, ← add_one_add_cast]
      exact hp
    exact absurd (ArrayAddress.add_cast_inj p 0 (i + 1) (by omega) (by omega) hself) (Nat.succ_ne_zero i).symm

/-- `strcat` appends, and stores to what it appends only. -/
theorem strcat_eq (src : CString) (h : StringAt m p s) (hlen : s.length + src.length < 2 ^ 32) (hf : s.length < fuel) :
    ∃ m', strcat fuel m p src = some m' ∧ StringAt m' p (s ++ src) ∧
      (∀ x, x ∈ m'.written ↔ x ∈ m.written ∨ Within (p + (s.length : α)) src.length x) ∧
      ∀ x, ¬ Within (p + (s.length : α)) src.length x → m'.byte x = m.byte x := by
  have hs : s.length < 2 ^ 32 := by omega
  refine ⟨strcpy m (p + (s.length : α)) src, ?_, ?_, fun x => mem_written_strcpy,
    fun x hx => byte_strcpy_of_notMem hx⟩
  · rw [strcat, strlen_eq h hs hf]
    simp only [Option.bind_eq_bind, Option.bind_some, BitVec.toNat_ofNat, Nat.mod_eq_of_lt hs]
    rfl
  · refine stringAt_append (fun i hi => ?_) (stringAt_strcpy _ _ (by omega))
    rw [byte_strcpy_of_notMem]
    · exact (stringAt_iff.mp h).1 i hi
    · rintro ⟨j, hj, heq⟩
      rw [add_cast_add] at heq
      exact absurd (ArrayAddress.add_cast_inj p i (s.length + j) (by omega) (by omega) heq) (by omega)

end Strcat

end RamString

end Pros
