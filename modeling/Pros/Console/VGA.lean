import Pros.Lib.Types

/-!
# The text console

The `VGA` object of `VGA.cpp`, with the text memory and the values it writes to ports. The memory begins at
`VGA_ADDRESS` and is not bounded by the code, so it is modelled as an unbounded array of cells.
-/

namespace Pros

def VGA_COLOR_BLACK : U8 := 0
def VGA_COLOR_GREEN : U8 := 2
def VGA_COLOR_RED : U8 := 4
def VGA_COLOR_LIGHT_GREY : U8 := 7
def VGA_COLOR_LIGHT_RED : U8 := 12

/-- The text memory. -/
structure TextMemory where
  cell : ℕ → U16
  /-- Ghost: the indices stored to so far, latest first. -/
  written : List ℕ := []

/-- `memory[i] = v`. -/
def TextMemory.store (m : TextMemory) (i : ℕ) (v : U16) : TextMemory where
  cell := Function.update m.cell i v
  written := i :: m.written

structure VGA where
  width : U8
  height : U8
  x : U8
  y : U8
  textColor : U8
  backgroundColor : U8
  color : U8
  memory : TextMemory
  commandPort : U16
  dataPort : U16
  /-- Ghost: the ports written to so far and the values, latest first. -/
  ports : List (U16 × U8)

namespace VGA

def vgaColor (foreground background : U8) : U8 := foreground ||| background <<< 4

/-- `vgaEntry`; `char` is signed. -/
def vgaEntry (ch color : U8) : U16 := ch.signExtend 16 ||| color.setWidth 16 <<< 8

/-- The constructor, for what the text memory holds. -/
def new (cell : ℕ → U16) : VGA where
  width := 80
  height := 25
  x := 0
  y := 0
  textColor := VGA_COLOR_LIGHT_GREY
  backgroundColor := VGA_COLOR_BLACK
  color := vgaColor VGA_COLOR_LIGHT_GREY VGA_COLOR_BLACK
  memory := { cell := cell }
  commandPort := 0x3D4
  dataPort := 0x3D5
  ports := []

/-- The first loop of `scroll`, for `n` rounds. -/
def moveUp (m : TextMemory) (width n : ℕ) : TextMemory :=
  (List.range n).foldl
    (fun m (i : ℕ) => if (i : ℤ) - width < 0 then m else m.store (i - width) (m.cell i)) m

/-- The second loop of `scroll`, for `n` rounds. -/
def clearRow (m : TextMemory) (start n : ℕ) (entry : U16) : TextMemory :=
  (List.range n).foldl (fun m i => m.store (start + i) entry) m

/-- `clear`. A row is cleared as in `scroll`. -/
def clear (v : VGA) : VGA :=
  { v with
    memory := (List.range v.height.toNat).foldl
      (fun m i => clearRow m (i * v.width.toNat) v.width.toNat (vgaEntry 0x20 v.color)) v.memory }

def scroll (v : VGA) : VGA :=
  if v.height ≤ v.y then
    let memory := moveUp v.memory v.width.toNat (v.width.toNat * v.height.toNat)
    let memory := clearRow memory ((v.height.toNat - 1) * v.width.toNat) v.width.toNat (vgaEntry 0x20 v.color)
    { v with memory := memory, y := v.y - 1, x := 0 }
  else v

/-- `Port8Bit::write`. -/
def write (v : VGA) (port : U16) (data : U8) : VGA := { v with ports := (port, data) :: v.ports }

def updateCursor (v : VGA) : VGA :=
  let pos := v.y.toNat * v.width.toNat + v.x.toNat
  let v := v.write v.commandPort 0x0F
  let v := v.write v.dataPort (BitVec.ofNat 8 (pos &&& 0xFF))
  let v := v.write v.commandPort 0x0E
  v.write v.dataPort (BitVec.ofNat 8 ((pos >>> 8) &&& 0xFF))

def putChar (v : VGA) (ch : U8) : VGA :=
  let v := if ch = 0x0A then { v with x := 0, y := v.y + 1 } else v
  let v :=
    if 0x20 ≤ ch.toInt then
      { v with
        memory := v.memory.store (v.y.toNat * v.width.toNat + v.x.toNat) (vgaEntry ch v.color)
        x := v.x + 1 }
    else v
  let v := if v.width ≤ v.x then { v with x := 0, y := v.y + 1 } else v
  v.scroll.updateCursor

def setTextColor (v : VGA) (color : U8) : VGA :=
  { v with textColor := color, color := vgaColor color v.backgroundColor }

def setBackgroundColor (v : VGA) (color : U8) : VGA :=
  { v with backgroundColor := color, color := vgaColor v.textColor color }

end VGA

end Pros
