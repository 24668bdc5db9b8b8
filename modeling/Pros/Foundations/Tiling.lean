import Mathlib.Data.List.Basic
import Mathlib.Tactic.Common

/-!
# Blocks laid end to end

A list of blocks, each with a span `span b`, occupies consecutive ranges from a start position on.
`positions` lists the blocks with their positions; distinct blocks occupy disjoint ranges
(`eq_or_apart`), all of them inside the range of the whole list (`mem_positions_bounds`), and a
block at a known position splits the list (`exists_split_of_mem_positions`).
-/

namespace Tiling

variable {β : Type} (span : β → ℕ)

/-- The extent of all the blocks together. -/
def total : List β → ℕ
  | [] => 0
  | b :: bs => span b + total bs

/-- The blocks with the positions at which they start, the first one at `pos`. -/
def positions : (pos : ℕ) → List β → List (ℕ × β)
  | _, [] => []
  | pos, b :: bs => (pos, b) :: positions (pos + span b) bs

@[simp] theorem total_nil : total span [] = 0 := rfl

@[simp] theorem total_cons (b : β) (bs : List β) : total span (b :: bs) = span b + total span bs := rfl

@[simp] theorem total_append (xs ys : List β) : total span (xs ++ ys) = total span xs + total span ys := by
  induction xs with
  | nil => simp
  | cons b xs ih => simp [ih, Nat.add_assoc]

@[simp] theorem positions_nil (pos : ℕ) : positions span pos [] = [] := rfl

@[simp] theorem positions_cons (pos : ℕ) (b : β) (bs : List β) :
    positions span pos (b :: bs) = (pos, b) :: positions span (pos + span b) bs := rfl

theorem positions_append (pos : ℕ) (xs ys : List β) :
    positions span pos (xs ++ ys) = positions span pos xs ++ positions span (pos + total span xs) ys := by
  induction xs generalizing pos with
  | nil => simp
  | cons b xs ih => simp [ih, Nat.add_assoc]

/-- The positions from a later start on. -/
theorem positions_add (a pos : ℕ) (bs : List β) :
    positions span (a + pos) bs = (positions span pos bs).map fun x => (a + x.1, x.2) := by
  induction bs generalizing pos with
  | nil => rfl
  | cons b bs ih => rw [positions_cons, positions_cons, List.map_cons, Nat.add_assoc, ih]

theorem map_snd_positions (pos : ℕ) (bs : List β) : (positions span pos bs).map Prod.snd = bs := by
  induction bs generalizing pos with
  | nil => rfl
  | cons b bs ih => rw [positions_cons, List.map_cons, ih]

variable {span} {pos : ℕ} {bs : List β}

/-- Every block lies inside the range of the whole list. -/
theorem mem_positions_bounds {x : ℕ × β} (h : x ∈ positions span pos bs) :
    pos ≤ x.1 ∧ x.1 + span x.2 ≤ pos + total span bs := by
  induction bs generalizing pos with
  | nil => simp at h
  | cons b bs ih =>
    rw [positions_cons, List.mem_cons] at h
    rw [total_cons]
    rcases h with rfl | h
    · exact ⟨Nat.le_refl _, by simp only; omega⟩
    · have := ih h
      omega

/-- Two blocks are the same or occupy disjoint ranges. -/
theorem eq_or_apart {x y : ℕ × β} (hx : x ∈ positions span pos bs) (hy : y ∈ positions span pos bs) :
    x = y ∨ x.1 + span x.2 ≤ y.1 ∨ y.1 + span y.2 ≤ x.1 := by
  induction bs generalizing pos with
  | nil => simp at hx
  | cons b bs ih =>
    rw [positions_cons, List.mem_cons] at hx hy
    rcases hx with rfl | hx <;> rcases hy with rfl | hy
    · exact Or.inl rfl
    · exact Or.inr (Or.inl (mem_positions_bounds hy).1)
    · exact Or.inr (Or.inr (mem_positions_bounds hx).1)
    · exact ih hx hy

/-- A block at a known position splits the list there. -/
theorem exists_split_of_mem_positions {a : ℕ} {b : β} (h : (a, b) ∈ positions span pos bs) :
    ∃ pre post, bs = pre ++ b :: post ∧ a = pos + total span pre := by
  induction bs generalizing pos with
  | nil => simp at h
  | cons c bs ih =>
    rw [positions_cons, List.mem_cons] at h
    rcases h with h | h
    · obtain ⟨rfl, rfl⟩ := Prod.mk.injEq .. |>.mp h
      exact ⟨[], bs, rfl, rfl⟩
    · obtain ⟨pre, post, rfl, rfl⟩ := ih h
      exact ⟨c :: pre, post, rfl, by rw [total_cons]; omega⟩

/-- The positions around a block in the middle of the list. -/
theorem mem_positions_middle {pre post : List β} {b : β} {x : ℕ × β} :
    x ∈ positions span pos (pre ++ b :: post) ↔ x ∈ positions span pos pre ∨
      x = (pos + total span pre, b) ∨ x ∈ positions span (pos + total span pre + span b) post := by
  rw [positions_append, positions_cons, List.mem_append, List.mem_cons]

/-- The block after a prefix is at the end of the prefix. -/
theorem mem_positions_split (pre post : List β) (b : β) :
    (pos + total span pre, b) ∈ positions span pos (pre ++ b :: post) := by
  rw [positions_append, positions_cons]
  exact List.mem_append_right _ List.mem_cons_self

end Tiling
