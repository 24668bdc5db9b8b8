import Mathlib.Data.List.Range

/-!
# Scans

A scan goes through a list until a round yields something. `List.findSome?` gives what it yields; `traced`
also collects what the rounds log on the way, up to the one that ends the scan.
-/

namespace Scan

variable {α β γ : Type} {g : ℕ → Option β} {m : ℕ} {y : β}

/-- A scan over a range finds the first index that yields something. -/
theorem findSome_range :
    (List.range m).findSome? g = some y ↔ ∃ i < m, g i = some y ∧ ∀ j < i, g j = none := by
  induction m with
  | zero => simp
  | succ m ih =>
    rw [List.range_succ, List.findSome?_append]
    cases hm : (List.range m).findSome? g with
    | some z =>
      rw [hm] at ih
      rw [Option.some_or, ih]
      constructor
      · rintro ⟨i, hi, h⟩
        exact ⟨i, by omega, h⟩
      · rintro ⟨i, hi, h1, h2⟩
        obtain ⟨k, hk, hz⟩ := List.exists_of_findSome?_eq_some hm
        rw [List.mem_range] at hk
        refine ⟨i, ?_, h1, h2⟩
        by_contra hlt
        rw [h2 k (by omega)] at hz
        cases hz
    | none =>
      rw [List.findSome?_eq_none_iff] at hm
      simp only [List.mem_range] at hm
      rw [Option.none_or, List.findSome?_cons, List.findSome?_nil]
      constructor
      · intro h
        refine ⟨m, by omega, ?_, hm⟩
        cases hg : g m with
        | none => rw [hg] at h; cases h
        | some z => rwa [hg] at h
      · rintro ⟨i, hi, h1, h2⟩
        obtain rfl : i = m := by
          by_contra hne
          rw [hm i (by omega)] at h1
          cases h1
        rw [h1]

theorem findSome_range_none : (List.range m).findSome? g = none ↔ ∀ i < m, g i = none := by
  rw [List.findSome?_eq_none_iff]
  simp only [List.mem_range]

/-- A scan whose rounds may fail is the plain one, if no round that it comes to fails. -/
theorem findSomeM_range' {f : ℕ → Option (Option β)} {s n : ℕ}
    (h : ∀ i, s ≤ i → i < s + n → (∀ j, s ≤ j → j < i → g j = none) → f i = some (g i)) :
    (List.range' s n).findSomeM? f = some ((List.range' s n).findSome? g) := by
  induction n generalizing s with
  | zero => rfl
  | succ n ih =>
    have hs := h s le_rfl (by omega) fun j h1 h2 => absurd h1 (not_le.mpr h2)
    rw [List.range'_succ, List.findSomeM?, hs, List.findSome?_cons]
    cases hg : g s with
    | some y => rfl
    | none =>
      refine ih fun i h1 h2 hbefore => h i (by omega) (by omega) fun j hj hji => ?_
      rcases Nat.eq_or_lt_of_le hj with rfl | hlt
      · exact hg
      · exact hbefore j hlt hji

theorem findSomeM_range {f : ℕ → Option (Option β)} (h : ∀ i < m, (∀ j < i, g j = none) → f i = some (g i)) :
    (List.range m).findSomeM? f = some ((List.range m).findSome? g) := by
  rw [List.range_eq_range']
  refine findSomeM_range' fun i _ hi hbefore => h i (by omega) fun j hj => hbefore j (Nat.zero_le _) hj

/-- A scan with the log of its rounds. -/
def traced (g : α → Option β × List γ) : List α → Option β × List γ
  | [] => (none, [])
  | a :: as =>
    match (g a).1 with
    | some y => (some y, (g a).2)
    | none => ((traced g as).1, (g a).2 ++ (traced g as).2)

variable {t : α → Option β × List γ}

/-- The log does not change what is found. -/
theorem traced_fst (as : List α) : (traced t as).1 = as.findSome? fun a => (t a).1 := by
  induction as with
  | nil => rfl
  | cons a as ih =>
    rw [traced, List.findSome?_cons]
    cases (t a).1 with
    | some y => rfl
    | none => exact ih

/-- The log of a scan over a range: the logs of the rounds before which nothing was found. -/
theorem mem_traced_range' {t : ℕ → Option β × List γ} {s n : ℕ} {x : γ} :
    x ∈ (traced t (List.range' s n)).2 ↔
      ∃ i, s ≤ i ∧ i < s + n ∧ (∀ j, s ≤ j → j < i → (t j).1 = none) ∧ x ∈ (t i).2 := by
  induction n generalizing s with
  | zero =>
    refine ⟨fun h => absurd h List.not_mem_nil, ?_⟩
    rintro ⟨i, h1, h2, -⟩
    omega
  | succ n ih =>
    have hhere : x ∈ (t s).2 →
        ∃ i, s ≤ i ∧ i < s + (n + 1) ∧ (∀ j, s ≤ j → j < i → (t j).1 = none) ∧ x ∈ (t i).2 :=
      fun hx => ⟨s, le_rfl, by omega, fun j h1 h2 => by omega, hx⟩
    rw [List.range'_succ, traced]
    cases hs : (t s).1 with
    | some y =>
      refine ⟨hhere, ?_⟩
      rintro ⟨i, h1, h2, hbefore, hx⟩
      rcases Nat.eq_or_lt_of_le h1 with rfl | hlt
      · exact hx
      · rw [hbefore s le_rfl hlt] at hs
        cases hs
    | none =>
      rw [List.mem_append, ih]
      constructor
      · rintro (hx | ⟨i, h1, h2, hbefore, hx⟩)
        · exact hhere hx
        · refine ⟨i, by omega, by omega, fun j hj hji => ?_, hx⟩
          rcases Nat.eq_or_lt_of_le hj with rfl | hlt
          · exact hs
          · exact hbefore j hlt hji
      · rintro ⟨i, h1, h2, hbefore, hx⟩
        rcases Nat.eq_or_lt_of_le h1 with rfl | hlt
        · exact Or.inl hx
        · exact Or.inr ⟨i, hlt, by omega, fun j hj hji => hbefore j (by omega) hji, hx⟩

theorem mem_traced_range {t : ℕ → Option β × List γ} {x : γ} : x ∈ (traced t (List.range m)).2 ↔
    ∃ i < m, (∀ j < i, (t j).1 = none) ∧ x ∈ (t i).2 := by
  rw [List.range_eq_range', mem_traced_range']
  simp

end Scan
