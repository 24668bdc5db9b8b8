import Mathlib.Logic.Function.Basic
import Mathlib.Data.Nat.Basic

/-!
# Unbounded terminals and their screens

A terminal is a sheet of rows that only grows, with a cursor. A screen of `w` columns and `h` rows shows its
last `h` rows, in one array, row after row. Going to a row that is there already only moves the cursor of
the screen (`Shows.newline_down`); going to a new row scrolls it (`Shows.newline_scroll`). Lines that are shorter
than a row each have a row of their own (`Lines.append`).
-/

/-- A sheet with `rows` rows and a cursor. -/
structure Terminal (α : Type) where
  cell : ℕ → ℕ → α
  rows : ℕ
  row : ℕ
  col : ℕ

namespace Terminal

variable {α : Type}

/-- Go to the first column of the next row. A row that was not there before is made of blanks. -/
def newline (t : Terminal α) (blank : α) : Terminal α :=
  if t.row + 1 < t.rows then { t with row := t.row + 1, col := 0 }
  else
    { cell := Function.update t.cell (t.row + 1) fun _ => blank
      rows := t.row + 2
      row := t.row + 1
      col := 0 }

/-- Write at the cursor. -/
def write (t : Terminal α) (a : α) : Terminal α :=
  { t with cell := Function.update t.cell t.row (Function.update (t.cell t.row) t.col a) }

/-- Write at the cursor and advance, to the next row after the last of `w` columns. -/
def put (t : Terminal α) (w : ℕ) (a blank : α) : Terminal α :=
  if t.col + 1 < w then { t.write a with col := t.col + 1 } else (t.write a).newline blank

/-- Make the last `h` rows blank. -/
def clear (t : Terminal α) (h : ℕ) (blank : α) : Terminal α :=
  { t with cell := fun i j => if t.rows - h ≤ i then blank else t.cell i j }

theorem cell_clear {t : Terminal α} {h i : ℕ} {blank : α} (hi : t.rows - h ≤ i) (j : ℕ) :
    (t.clear h blank).cell i j = blank := if_pos hi

/-- Row `i` and column `j` of the last `h` rows. -/
def screen (t : Terminal α) (h i j : ℕ) : α := t.cell (t.rows - h + i) j

/-- The array shows the last `h` rows, with the cursor at column `x` of row `y`. -/
structure Shows (t : Terminal α) (w h : ℕ) (cells : ℕ → α) (x y : ℕ) : Prop where
  rows_le : h ≤ t.rows
  y_lt : y < h
  x_lt : x < w
  row_eq : t.row = t.rows - h + y
  col_eq : t.col = x
  cells_eq : ∀ i < h, ∀ j < w, cells (i * w + j) = t.screen h i j

namespace Shows

variable {t : Terminal α} {w n x y : ℕ} {cells cells' : ℕ → α} {a blank : α}

/-- The position in the array tells row and column. -/
theorem index_inj {i i' j j' : ℕ} (hj : j < w) (hj' : j' < w) (h : i * w + j = i' * w + j') :
    i = i' ∧ j = j' := by
  have hmod := congrArg (· % w) h
  simp only [Nat.mul_add_mod_of_lt hj, Nat.mul_add_mod_of_lt hj'] at hmod
  subst hmod
  exact ⟨Nat.eq_of_mul_eq_mul_right (by omega) (Nat.add_right_cancel h), rfl⟩

/-- Writing at the cursor. -/
theorem write (h : t.Shows w n cells x y) (a : α) :
    (t.write a).Shows w n (Function.update cells (y * w + x) a) x y := by
  refine ⟨h.rows_le, h.y_lt, h.x_lt, h.row_eq, h.col_eq, fun i hi j hj => ?_⟩
  have hold := h.cells_eq i hi j hj
  unfold screen at hold ⊢
  simp only [Terminal.write, h.row_eq, h.col_eq]
  by_cases hij : i = y ∧ j = x
  · obtain ⟨rfl, rfl⟩ := hij
    rw [Function.update_self, Function.update_self, Function.update_self]
  · have hne : i * w + j ≠ y * w + x := fun heq => hij (index_inj hj h.x_lt heq)
    rw [Function.update_of_ne hne, hold]
    by_cases hi' : i = y
    · subst hi'
      rw [Function.update_self, Function.update_of_ne fun hjx => hij ⟨rfl, hjx⟩]
    · rw [Function.update_of_ne (by omega)]

/-- Advancing inside a row. -/
theorem right (h : t.Shows w n cells x y) (hx : x + 1 < w) :
    { t with col := t.col + 1 }.Shows w n cells (x + 1) y :=
  ⟨h.rows_le, h.y_lt, hx, h.row_eq, congrArg (· + 1) h.col_eq, h.cells_eq⟩

/-- Going to a row of the screen. -/
theorem newline_down (h : t.Shows w n cells x y) (hy : y + 1 < n) :
    (t.newline blank).Shows w n cells 0 (y + 1) := by
  have hrow := h.row_eq
  have hrows := h.rows_le
  have hx := h.x_lt
  unfold newline
  rw [if_pos (by omega)]
  exact ⟨hrows, hy, by omega, by simp only; omega, rfl, h.cells_eq⟩

/-- Going to a new row moves the others up. -/
theorem newline_scroll (h : t.Shows w n cells x y) (hy : y + 1 = n)
    (hup : ∀ i, i + 1 < n → ∀ j < w, cells' (i * w + j) = cells ((i + 1) * w + j))
    (hblank : ∀ j < w, cells' (y * w + j) = blank) :
    (t.newline blank).Shows w n cells' 0 y := by
  have hrow := h.row_eq
  have hrows := h.rows_le
  have hx := h.x_lt
  unfold newline
  rw [if_neg (by omega)]
  refine ⟨by simp only; omega, h.y_lt, by omega, by simp only; omega, rfl, fun i hi j hj => ?_⟩
  unfold screen
  simp only
  by_cases hiy : i = y
  · subst hiy
    rw [hblank j hj, show t.row + 2 - n + i = t.row + 1 by omega, Function.update_self]
  · rw [hup i (by omega) j hj, h.cells_eq (i + 1) (by omega) j hj, screen,
      Function.update_of_ne (by omega), show t.row + 2 - n + i = t.rows - n + (i + 1) by omega]

theorem clear (h : t.Shows w n cells x y) (hcells : ∀ i < n, ∀ j < w, cells' (i * w + j) = blank) :
    (t.clear n blank).Shows w n cells' x y := by
  refine ⟨h.rows_le, h.y_lt, h.x_lt, h.row_eq, h.col_eq, fun i hi j hj => ?_⟩
  rw [hcells i hi j hj, screen]
  exact (cell_clear (Nat.le_add_right _ _) j).symm

end Shows

/-! ## Lines -/

variable {t : Terminal α} {w n : ℕ} {blank : α} {l : List α} {ls : List (List α)}

/-- A line is in the columns behind the cursor of a row. -/
theorem foldl_put (hw : t.col + l.length < w) :
    l.foldl (fun t a => t.put w a blank) t =
      { t with
        cell := Function.update t.cell t.row fun j =>
          if t.col ≤ j then (l[j - t.col]?).getD (t.cell t.row j) else t.cell t.row j
        col := t.col + l.length } := by
  induction l generalizing t with
  | nil =>
    have hcell : (fun j => if t.col ≤ j then (([] : List α)[j - t.col]?).getD (t.cell t.row j) else t.cell t.row j) =
        t.cell t.row := by
      funext j
      split_ifs <;> rfl
    rw [List.foldl_nil, hcell, Function.update_eq_self]
    rfl
  | cons a l ih =>
    rw [List.length_cons] at hw
    rw [List.foldl_cons, put, if_pos (by omega), ih (by simp only; omega)]
    simp only [write, Function.update_self, Function.update_idem, List.length_cons]
    refine congrArg₂ (fun cell col => (⟨cell, t.rows, t.row, col⟩ : Terminal α)) (congrArg _ (funext fun j => ?_))
      (by omega)
    rcases Nat.lt_trichotomy j t.col with hj | rfl | hj
    · rw [if_neg (by omega), if_neg (by omega), Function.update_of_ne (by omega)]
    · rw [if_neg (by omega), if_pos le_rfl, Function.update_self, Nat.sub_self]
      rfl
    · rw [if_pos (by omega), if_pos (by omega), Function.update_of_ne (by omega),
        show j - t.col = j - (t.col + 1) + 1 by omega, List.getElem?_cons_succ]

/-- The sheet holds these lines, one in a row and blanks behind it, and the cursor is at the row behind them. -/
structure Lines (t : Terminal α) (w h : ℕ) (blank : α) (ls : List (List α)) : Prop where
  row_eq : t.row = ls.length
  col_eq : t.col = 0
  rows_eq : t.rows = max h (ls.length + 1)
  cell_eq : ∀ i < t.rows, ∀ j < w, t.cell i j = ((ls[i]?.getD [])[j]?).getD blank

/-- One more line, if there is room for it and the cursor in a row. -/
theorem Lines.append (h : t.Lines w n blank ls) (hw : l.length < w) :
    ((l.foldl (fun t a => t.put w a blank) t).newline blank).Lines w n blank (ls ++ [l]) := by
  have hrow := h.row_eq
  have hrows := h.rows_eq
  have hcol := h.col_eq
  have hlen : (ls ++ [l]).length = ls.length + 1 := List.length_append
  -- The row of the cursor was blank.
  have hblank : ∀ j < w, t.cell t.row j = blank := by
    intro j hj
    rw [h.cell_eq t.row (by omega) j hj, hrow, List.getElem?_eq_none le_rfl]
    rfl
  have hwritten : ∀ i < t.rows, ∀ j < w,
      Function.update t.cell t.row (fun j => (l[j]?).getD (t.cell t.row j)) i j =
        (((ls ++ [l])[i]?.getD [])[j]?).getD blank := by
    intro i hi j hj
    by_cases hir : i = t.row
    · rw [hir, Function.update_self, hblank j hj, hrow, List.getElem?_concat_length]
      rfl
    · rw [Function.update_of_ne hir, h.cell_eq i hi j hj]
      rcases Nat.lt_or_ge i ls.length with hlt | hge
      · rw [List.getElem?_append_left hlt]
      · rw [List.getElem?_eq_none hge, List.getElem?_eq_none (show (ls ++ [l]).length ≤ i by omega)]
  rw [foldl_put (by omega)]
  simp only [hcol, Nat.zero_le, if_true, Nat.sub_zero]
  unfold newline
  by_cases hlast : t.row + 1 < t.rows
  · rw [if_pos hlast]
    exact ⟨by simp only; omega, rfl, by simp only; omega, hwritten⟩
  · rw [if_neg hlast]
    refine ⟨by simp only; omega, rfl, by simp only; omega, fun i hi j hj => ?_⟩
    simp only at hi ⊢
    by_cases hir : i = t.row + 1
    · rw [hir, Function.update_self, List.getElem?_eq_none (show (ls ++ [l]).length ≤ t.row + 1 by omega)]
      rfl
    · rw [Function.update_of_ne hir, hwritten i (by omega) j hj]

/-- The screen shows the last lines, with a row for the cursor. -/
theorem Lines.screen (h : t.Lines w n blank ls) {i j : ℕ} (hi : i < n) (hj : j < w) :
    t.screen n i j = (((ls.drop (ls.length + 1 - n))[i]?.getD [])[j]?).getD blank := by
  have hrows := h.rows_eq
  rw [Terminal.screen, h.cell_eq _ (by omega) j hj, List.getElem?_drop,
    show t.rows - n + i = ls.length + 1 - n + i by omega]

end Terminal
