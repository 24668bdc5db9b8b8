import Pros.Console.Console
import Mathlib.Data.List.Range

/-!
# The text console is a terminal

Both loops of `scroll` are described cell by cell. A call of `putChar` writes at most one cell and goes on to
the next column or row; the latter is `newline` of the terminal, with or without scrolling.
-/

namespace Pros

open VGA

variable {m : TextMemory} {v : VGA} {c : Console} {t : Terminal U16} {width start n i k x y : ℕ}
  {entry : U16} {ch : U8} {ops : List ConsoleOp}

/-! ## Scrolling -/

theorem moveUp_succ : moveUp m width (n + 1) =
    if n < width then moveUp m width n
    else (moveUp m width n).store (n - width) ((moveUp m width n).cell n) := by
  have hlt : ((n : ℤ) - width < 0) ↔ n < width := by omega
  unfold moveUp
  simp only [List.range_succ, List.foldl_append, List.foldl_cons, List.foldl_nil, hlt]

/-- After `n` rounds the cells below `n - width` have moved. -/
theorem cell_moveUp (hw : 0 < width) : (moveUp m width n).cell k =
    if k + width < n then m.cell (k + width) else m.cell k := by
  induction n generalizing k with
  | zero => rfl
  | succ n ih =>
    rw [moveUp_succ]
    by_cases hn : n < width
    · rw [if_pos hn, ih, if_neg (by omega), if_neg (by omega)]
    · rw [if_neg hn, TextMemory.store]
      simp only
      by_cases hk : k = n - width
      · have hkn : k + width = n := by omega
        rw [hk, Function.update_self, ih, if_neg (by omega), if_pos (by omega), ← hk, hkn]
      · rw [Function.update_of_ne hk, ih]
        have hiff : k + width < n ↔ k + width < n + 1 := by omega
        simp only [hiff]

theorem written_moveUp (h : i ∈ (moveUp m width n).written) : i ∈ m.written ∨ i + width < n := by
  induction n with
  | zero => exact Or.inl h
  | succ n ih =>
    rw [moveUp_succ] at h
    by_cases hn : n < width
    · rw [if_pos hn] at h
      rcases ih h with h | h
      · exact Or.inl h
      · exact Or.inr (by omega)
    · rw [if_neg hn] at h
      rcases List.mem_cons.mp h with rfl | h
      · exact Or.inr (by omega)
      · rcases ih h with h | h
        · exact Or.inl h
        · exact Or.inr (by omega)

theorem clearRow_succ : clearRow m start (n + 1) entry =
    (clearRow m start n entry).store (start + n) entry := by
  unfold clearRow
  rw [List.range_succ, List.foldl_append, List.foldl_cons, List.foldl_nil]

theorem cell_clearRow : (clearRow m start n entry).cell k =
    if start ≤ k ∧ k < start + n then entry else m.cell k := by
  induction n with
  | zero => rw [if_neg (by omega)]; rfl
  | succ n ih =>
    rw [clearRow_succ, TextMemory.store]
    simp only
    by_cases hk : k = start + n
    · rw [hk, Function.update_self, if_pos (by omega)]
    · rw [Function.update_of_ne hk, ih]
      have hiff : start ≤ k ∧ k < start + n ↔ start ≤ k ∧ k < start + (n + 1) := by omega
      simp only [hiff]

theorem written_clearRow (h : i ∈ (clearRow m start n entry).written) :
    i ∈ m.written ∨ i < start + n := by
  induction n with
  | zero => exact Or.inl h
  | succ n ih =>
    rw [clearRow_succ] at h
    rcases List.mem_cons.mp h with rfl | h
    · exact Or.inr (by omega)
    · rcases ih h with h | h
      · exact Or.inl h
      · exact Or.inr (by omega)

/-! ## The invariant -/

/-- What the constructor sets for good. -/
structure Fixed (v : VGA) : Prop where
  width : v.width = 80
  height : v.height = 25
  commandPort : v.commandPort = 0x3D4
  dataPort : v.dataPort = 0x3D5

/-- The object shows the terminal, and has written to the screen only. -/
structure ScreenInv (v : VGA) (t : Terminal U16) : Prop extends Fixed v where
  shows : t.Shows 80 25 v.memory.cell v.x.toNat v.y.toNat
  written : ∀ i ∈ v.memory.written, i < 2000

theorem Fixed.scroll_of_lt (h : Fixed v) (hy : v.y.toNat < 25) : v.scroll = v := by
  unfold VGA.scroll
  have hnot : ¬ v.height ≤ v.y := by
    rw [h.height, BitVec.le_def]
    exact Nat.not_le.mpr hy
  rw [if_neg hnot]

/-- At the bottom of the screen. -/
theorem Fixed.scroll_of_eq (h : Fixed v) (hy : v.y.toNat = 25) : v.scroll =
    { v with
      memory := clearRow (moveUp v.memory 80 2000) 1920 80 (vgaEntry 0x20 v.color)
      y := v.y - 1
      x := 0 } := by
  have hle : v.height ≤ v.y := by
    rw [h.height, BitVec.le_def, hy]
    exact le_rfl
  unfold VGA.scroll
  rw [if_pos hle, h.width, h.height]
  rfl

/-- The cursor has gone to the beginning of the next row, and `scroll` follows. -/
theorem ScreenInv.newline (h : ScreenInv v t) :
    ScreenInv ({ v with x := 0, y := v.y + 1 } : VGA).scroll (t.newline (vgaEntry 0x20 v.color)) := by
  have hfixed : Fixed { v with x := 0, y := v.y + 1 } := ⟨h.width, h.height, h.commandPort, h.dataPort⟩
  have hylt := h.shows.y_lt
  have hy : (v.y + 1).toNat = v.y.toNat + 1 := by
    rw [BitVec.toNat_add_of_lt]
    · rfl
    · show v.y.toNat + 1 < 2 ^ 8
      omega
  by_cases hrow : v.y.toNat + 1 < 25
  · rw [hfixed.scroll_of_lt (hy.trans_lt hrow)]
    refine ⟨hfixed, ?_, h.written⟩
    simp only [hy]
    exact h.shows.newline_down hrow
  · have hbottom : v.y.toNat + 1 = 25 := by omega
    rw [hfixed.scroll_of_eq (hy.trans hbottom)]
    have hback : (v.y + 1 - 1).toNat = v.y.toNat := by
      rw [BitVec.add_sub_cancel]
    refine ⟨⟨h.width, h.height, h.commandPort, h.dataPort⟩, ?_, fun i hi => ?_⟩
    · simp only [hback]
      refine h.shows.newline_scroll hbottom (fun i hi j hj => ?_) fun j hj => ?_
      · rw [cell_clearRow, if_neg (by omega), cell_moveUp (by omega), if_pos (by omega),
          show i * 80 + j + 80 = (i + 1) * 80 + j by omega]
      · rw [cell_clearRow, if_pos (by omega)]
    · rcases written_clearRow hi with hi | hi
      · rcases written_moveUp hi with hi | hi
        · exact h.written i hi
        · omega
      · exact hi

/-- Writing a cell of the screen. -/
theorem ScreenInv.store (h : ScreenInv v t) (a : U16) :
    ScreenInv { v with memory := v.memory.store (v.y.toNat * 80 + v.x.toNat) a } (t.write a) := by
  have hx := h.shows.x_lt
  have hy := h.shows.y_lt
  refine ⟨⟨h.width, h.height, h.commandPort, h.dataPort⟩, h.shows.write a, fun i hi => ?_⟩
  rcases List.mem_cons.mp hi with rfl | hi
  · omega
  · exact h.written i hi

/-- The cursor has gone to the next column, and `scroll` has nothing to do. -/
theorem ScreenInv.right (h : ScreenInv v t) (hx : v.x.toNat + 1 < 80) :
    ScreenInv ({ v with x := v.x + 1 } : VGA).scroll { t with col := t.col + 1 } := by
  have hfixed : Fixed { v with x := v.x + 1 } := ⟨h.width, h.height, h.commandPort, h.dataPort⟩
  have hx' : (v.x + 1).toNat = v.x.toNat + 1 := by
    rw [BitVec.toNat_add_of_lt]
    · rfl
    · show v.x.toNat + 1 < 2 ^ 8
      omega
  rw [hfixed.scroll_of_lt h.shows.y_lt]
  refine ⟨hfixed, ?_, h.written⟩
  simp only [hx']
  exact h.shows.right hx

/-- `updateCursor` touches the ports only. -/
theorem updateCursor_eq (v : VGA) : ∃ ports, v.updateCursor = { v with ports := ports } := ⟨_, rfl⟩

theorem ScreenInv.updateCursor (h : ScreenInv v t) : ScreenInv v.updateCursor t := by
  obtain ⟨ports, heq⟩ := updateCursor_eq v
  rw [heq]
  exact ⟨⟨h.width, h.height, h.commandPort, h.dataPort⟩, h.shows, h.written⟩

/-! ## The cursor -/

/-- The two bytes that `updateCursor` sends make up the position. -/
theorem Fixed.cursor_updateCursor (h : Fixed v) (hx : v.x.toNat < 80) (hy : v.y.toNat < 25) :
    (CRTC.after v.updateCursor.ports).cursor = some (v.y.toNat * 80 + v.x.toNat) := by
  have hlow : (v.y.toNat * 80 + v.x.toNat) &&& 0xFF = (v.y.toNat * 80 + v.x.toNat) % 256 :=
    Nat.and_two_pow_sub_one_eq_mod _ 8
  have hhigh : ((v.y.toNat * 80 + v.x.toNat) >>> 8) &&& 0xFF = (v.y.toNat * 80 + v.x.toNat) / 256 % 256 := by
    rw [Nat.shiftRight_eq_div_pow]
    exact Nat.and_two_pow_sub_one_eq_mod _ 8
  have hwidth : v.width.toNat = 80 := by
    rw [h.width]
    rfl
  unfold VGA.updateCursor
  simp only [VGA.write, CRTC.after, CRTC.write, h.commandPort, h.dataPort, hwidth, hlow, hhigh]
  simp [CRTC.cursor]
  omega

/-! ## The calls -/

theorem Fixed.putChar_newline (h : Fixed v) :
    v.putChar 0x0A = ({ v with x := 0, y := v.y + 1 } : VGA).scroll.updateCursor := by
  have hwidth : ¬ v.width ≤ 0 := by
    rw [h.width]
    decide
  unfold VGA.putChar
  simp only [if_true, if_neg (show ¬ 0x20 ≤ (0x0A : U8).toInt by decide), if_neg hwidth]

theorem Fixed.putChar_glyph (h : Fixed v) (hch : 0x20 ≤ ch.toInt) (hx : v.x.toNat < 80) :
    v.putChar ch =
      if v.x.toNat + 1 < 80 then
        ({ v with
          memory := v.memory.store (v.y.toNat * 80 + v.x.toNat) (vgaEntry ch v.color)
          x := v.x + 1 } : VGA).scroll.updateCursor
      else
        ({ v with
          memory := v.memory.store (v.y.toNat * 80 + v.x.toNat) (vgaEntry ch v.color)
          x := 0
          y := v.y + 1 } : VGA).scroll.updateCursor := by
  have hne : ch ≠ 0x0A := by
    rintro rfl
    exact absurd hch (by decide)
  have hwidth : v.width.toNat = 80 := by
    rw [h.width]
    rfl
  have hx' : (v.x + 1).toNat = v.x.toNat + 1 := by
    rw [BitVec.toNat_add_of_lt]
    · rfl
    · show v.x.toNat + 1 < 2 ^ 8
      omega
  have hle : v.width ≤ v.x + 1 ↔ ¬ v.x.toNat + 1 < 80 := by
    rw [BitVec.le_def, hwidth, hx', Nat.not_lt]
  unfold VGA.putChar
  simp only [if_neg hne, if_pos hch, hle, hwidth]
  by_cases hlt : v.x.toNat + 1 < 80
  · rw [if_pos hlt, if_neg (not_not.mpr hlt)]
  · rw [if_neg hlt, if_pos hlt]

theorem Fixed.putChar_ignored (h : Fixed v) (hne : ch ≠ 0x0A) (hch : ¬ 0x20 ≤ ch.toInt)
    (hx : v.x.toNat < 80) : v.putChar ch = v.scroll.updateCursor := by
  have hwidth : ¬ v.width ≤ v.x := by
    rw [h.width, BitVec.le_def]
    exact Nat.not_le.mpr hx
  unfold VGA.putChar
  simp only [if_neg hne, if_neg hch, if_neg hwidth]

/-- What relates the object and the console between calls. -/
structure ConsoleInv (v : VGA) (c : Console) : Prop extends ScreenInv v c.terminal where
  textColor : v.textColor = c.textColor
  backgroundColor : v.backgroundColor = c.backgroundColor
  color : v.color = vgaColor c.textColor c.backgroundColor
  cursor : v.ports ≠ [] → (CRTC.after v.ports).cursor = some (v.y.toNat * 80 + v.x.toNat)

theorem ConsoleInv.new (cell : ℕ → U16) : ConsoleInv (.new cell) (.new cell) where
  width := rfl
  height := rfl
  commandPort := rfl
  dataPort := rfl
  shows := by
    refine ⟨le_rfl, Nat.zero_lt_succ _, Nat.zero_lt_succ _, rfl, rfl, fun i _ j _ => ?_⟩
    rw [Terminal.screen, Console.new, Nat.sub_self, Nat.zero_add]
    rfl
  written := by intro i hi; cases hi
  textColor := rfl
  backgroundColor := rfl
  color := rfl
  cursor := fun h => absurd rfl h

theorem scroll_fields (v : VGA) : v.scroll.textColor = v.textColor ∧
    v.scroll.backgroundColor = v.backgroundColor ∧ v.scroll.color = v.color := by
  unfold VGA.scroll
  split_ifs <;> exact ⟨rfl, rfl, rfl⟩

/-- `putChar` ends by sending the cursor. -/
theorem ConsoleInv.of_screen {u : VGA} (h : ConsoleInv v c) (hu : ScreenInv u t)
    (htext : u.textColor = v.textColor) (hback : u.backgroundColor = v.backgroundColor)
    (hcolor : u.color = v.color) : ConsoleInv u.updateCursor { c with terminal := t } := by
  have hscreen := hu.updateCursor
  have hcursor := hu.cursor_updateCursor hu.shows.x_lt hu.shows.y_lt
  obtain ⟨ports, heq⟩ := updateCursor_eq u
  rw [heq] at hscreen hcursor ⊢
  exact ⟨hscreen, htext.trans h.textColor, hback.trans h.backgroundColor, hcolor.trans h.color,
    fun _ => hcursor⟩

/-- What follows the moves of the cursor in `putChar`. -/
theorem ConsoleInv.update {u : VGA} (h : ConsoleInv v c) (hu : ScreenInv u.scroll t)
    (htext : u.textColor = v.textColor) (hback : u.backgroundColor = v.backgroundColor)
    (hcolor : u.color = v.color) : ConsoleInv u.scroll.updateCursor { c with terminal := t } := by
  obtain ⟨h1, h2, h3⟩ := scroll_fields u
  exact h.of_screen hu (h1.trans htext) (h2.trans hback) (h3.trans hcolor)

theorem ConsoleInv.putChar (h : ConsoleInv v c) (ch : U8) :
    ConsoleInv (v.putChar ch) (c.step (.putChar ch)) := by
  have hblank : vgaEntry 0x20 v.color = c.blank := by rw [h.color]; rfl
  have hglyph : vgaEntry ch v.color = c.glyph ch := by rw [h.color]; rfl
  rw [Console.step]
  by_cases hne : ch = 0x0A
  · rw [if_pos hne, hne, h.putChar_newline, ← hblank]
    exact h.update h.toScreenInv.newline rfl rfl rfl
  · rw [if_neg hne]
    by_cases hch : 0x20 ≤ ch.toInt
    · have hcol : c.terminal.col + 1 < 80 ↔ v.x.toNat + 1 < 80 := by rw [h.shows.col_eq]
      have hstore := h.store (vgaEntry ch v.color)
      rw [if_pos hch, h.putChar_glyph hch h.shows.x_lt, ← hblank, ← hglyph, Terminal.put]
      by_cases hx : v.x.toNat + 1 < 80
      · rw [if_pos hx, if_pos (hcol.mpr hx)]
        exact h.update (hstore.right hx) rfl rfl rfl
      · rw [if_neg hx, if_neg (hcol.not.mpr hx)]
        exact h.update hstore.newline rfl rfl rfl
    · rw [if_neg hch, h.putChar_ignored hne hch h.shows.x_lt]
      have hscroll : ScreenInv v.scroll c.terminal := by
        rw [h.scroll_of_lt h.shows.y_lt]
        exact h.toScreenInv
      exact h.update hscroll rfl rfl rfl

theorem ConsoleInv.step (h : ConsoleInv v c) (op : ConsoleOp) : ConsoleInv (v.step op) (c.step op) := by
  cases op with
  | putChar ch => exact h.putChar ch
  | setTextColor color =>
    refine ⟨⟨⟨h.width, h.height, h.commandPort, h.dataPort⟩, h.shows, h.written⟩, rfl, h.backgroundColor,
      ?_, h.cursor⟩
    show vgaColor color v.backgroundColor = vgaColor color c.backgroundColor
    rw [h.backgroundColor]
  | setBackgroundColor color =>
    refine ⟨⟨⟨h.width, h.height, h.commandPort, h.dataPort⟩, h.shows, h.written⟩, h.textColor, rfl,
      ?_, h.cursor⟩
    show vgaColor v.textColor color = vgaColor c.textColor color
    rw [h.textColor]

theorem ConsoleInv.run (h : ConsoleInv v c) (ops : List ConsoleOp) :
    ConsoleInv (ops.foldl VGA.step v) (ops.foldl Console.step c) := by
  induction ops generalizing v c with
  | nil => exact h
  | cons op ops ih => exact ih (h.step op)

theorem ConsoleInv.displays (h : ConsoleInv v c) : Displays v c where
  cells := h.shows.cells_eq
  x_lt := h.shows.x_lt
  y_lt := h.shows.y_lt
  col := h.shows.col_eq
  row := h.shows.row_eq
  written := h.written
  cursor := h.cursor

end Pros
