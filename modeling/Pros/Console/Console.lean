import Pros.Console.VGA
import Pros.Foundations.Terminal

/-!
# The console as a terminal

What the text console is for: it shows the last 25 rows of an unbounded terminal with 80 columns, and tells
the CRT controller where the cursor is.
-/

namespace Pros

/-- The calls of the console's users. -/
inductive ConsoleOp where
  | putChar (ch : U8)
  | setTextColor (color : U8)
  | setBackgroundColor (color : U8)

def VGA.step (v : VGA) : ConsoleOp → VGA
  | .putChar ch => v.putChar ch
  | .setTextColor color => v.setTextColor color
  | .setBackgroundColor color => v.setBackgroundColor color

/-- A terminal and the colours in use. -/
structure Console where
  terminal : Terminal U16
  textColor : U8
  backgroundColor : U8

namespace Console

/-- The 25 rows on the screen, the cursor at the top left. -/
def new (cell : ℕ → U16) : Console where
  terminal := ⟨fun i j => cell (i * 80 + j), 25, 0, 0⟩
  textColor := VGA_COLOR_LIGHT_GREY
  backgroundColor := VGA_COLOR_BLACK

/-- A character in the current colour. -/
def glyph (c : Console) (ch : U8) : U16 := VGA.vgaEntry ch (VGA.vgaColor c.textColor c.backgroundColor)

/-- A space in the current colour. -/
def blank (c : Console) : U16 := c.glyph 0x20

def step (c : Console) : ConsoleOp → Console
  | .putChar ch =>
    if ch = 0x0A then { c with terminal := c.terminal.newline c.blank }
    else if 0x20 ≤ ch.toInt then { c with terminal := c.terminal.put 80 (c.glyph ch) c.blank }
    else c
  | .setTextColor color => { c with textColor := color }
  | .setBackgroundColor color => { c with backgroundColor := color }

end Console

/-! ## The CRT controller -/

/-- The registers of the CRT controller that hold the cursor, as far as they have been written. -/
structure CRTC where
  index : Option U8
  cursorHigh : Option U8
  cursorLow : Option U8

namespace CRTC

/-- A write to a port: 0x3D4 selects a register, 0x3D5 writes to it. -/
def write (c : CRTC) (port : U16) (data : U8) : CRTC :=
  if port = 0x3D4 then { c with index := some data }
  else if port = 0x3D5 then
    if c.index = some 0x0E then { c with cursorHigh := some data }
    else if c.index = some 0x0F then { c with cursorLow := some data }
    else c
  else c

/-- The registers after the writes to ports listed, latest first. -/
def after : List (U16 × U8) → CRTC
  | [] => ⟨none, none, none⟩
  | (port, data) :: ports => (after ports).write port data

/-- The position of the cursor, once it is known. -/
def cursor (c : CRTC) : Option ℕ :=
  match c.cursorHigh, c.cursorLow with
  | some high, some low => some (high.toNat * 256 + low.toNat)
  | _, _ => none

end CRTC

/-- The text memory shows the last 25 rows of the terminal, with the cursor where it is there; only cells on
    the screen have been written; and the CRT controller was last told where the cursor is, if anything. -/
structure Displays (v : VGA) (c : Console) : Prop where
  cells : ∀ i < 25, ∀ j < 80, v.memory.cell (i * 80 + j) = c.terminal.screen 25 i j
  x_lt : v.x.toNat < 80
  y_lt : v.y.toNat < 25
  col : c.terminal.col = v.x.toNat
  row : c.terminal.row = c.terminal.rows - 25 + v.y.toNat
  written : ∀ i ∈ v.memory.written, i < 2000
  cursor : v.ports ≠ [] → (CRTC.after v.ports).cursor = some (v.y.toNat * 80 + v.x.toNat)

end Pros
