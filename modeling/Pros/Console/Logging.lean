import Pros.Console.Console
import Pros.Lib.Format

/-!
# Logging

`log` writes to the screen, the badge of its level in a colour of its own, and `klog` to the serial port. A `va_list`
is a pointer and is passed by value, so every call of `printf` finds all of the arguments.

What the users of these functions see is text in colours on a terminal, and a transcript at the port.
-/

-- `__log` is the name in the source.
set_option linter.style.nameCheck false

namespace Pros

/-- The characters of a literal that has none outside ASCII. -/
def literal (s : String) : CString :=
  s.toList.filterMap fun c => if h : BitVec.ofNat 8 c.toNat ≠ 0 then some ⟨BitVec.ofNat 8 c.toNat, h⟩ else none

/-- `print`. -/
def print (v : VGA) (data : List U8) : VGA := data.foldl VGA.putChar v

/-- `serialPrint`, for the writes to ports so far, latest first. -/
def serialPrint (sent : List (U16 × U8)) (data : List U8) : List (U16 × U8) :=
  data.foldl (fun sent byte => (0x3F8, byte) :: sent) sent

/-- What logging works on. -/
structure Logger where
  vga : VGA
  /-- The writes to the serial port so far, latest first. -/
  sent : List (U16 × U8)

namespace Logger

section

variable (stack : Memory ℕ) (fuel : ℕ) (s : Logger)

/-- `printf` with its print function. The print functions go byte by byte, so that one call does what the calls in
    `printf` do. -/
def printf (format : CString) (parameters : List VaArg) (serial : Bool) : Option Logger := do
  let printed ← Pros.printf stack fuel format parameters
  if serial then return { s with sent := serialPrint s.sent printed.out }
  else return { s with vga := print s.vga printed.out }

def setTextColor (color : U8) : Logger := { s with vga := s.vga.setTextColor color }

/-- `__log`. -/
def __log (format : CString) (parameters : List VaArg) : Option Logger := s.printf stack fuel format parameters false

/-- A case of `log`. -/
def badge (name : CString) (color : U8) (parameters : List VaArg) : Option Logger := do
  let s ← s.printf stack fuel (literal "[") parameters false
  let s := s.setTextColor color
  let s ← s.printf stack fuel name parameters false
  let s := s.setTextColor VGA_COLOR_LIGHT_GREY
  s.printf stack fuel (literal "] ") parameters false

/-- The `switch` in `log`. -/
def logLevel (level : U32) (parameters : List VaArg) : Option Logger :=
  if level = 0 then s.badge stack fuel (literal " LOG ") VGA_COLOR_GREEN parameters
  else if level = 1 then s.badge stack fuel (literal " WARN ") VGA_COLOR_LIGHT_RED parameters
  else if level = 2 then s.badge stack fuel (literal " ERR ") VGA_COLOR_RED parameters
  else some s

def log (level : U32) (format : CString) (parameters : List VaArg) : Option Logger := do
  let s ← s.logLevel stack fuel level parameters
  let s ← s.printf stack fuel format parameters false
  s.printf stack fuel (literal "\n") parameters false

/-- The `switch` in `klog`. -/
def klogLevel (level : U32) (parameters : List VaArg) : Option Logger :=
  if level = 0 then s.printf stack fuel (literal "[\x1b[32mLOG\x1b[39m] ") parameters true
  else if level = 1 then s.printf stack fuel (literal "[\x1b[33mWARN\x1b[39m] ") parameters true
  else if level = 2 then s.printf stack fuel (literal "[\x1b[31mERR\x1b[39m] ") parameters true
  else if level = 3 then s.printf stack fuel (literal "[\x1b[36mDBG\x1b[39m] ") parameters true
  else some s

def klog (level : U32) (format : CString) (parameters : List VaArg) : Option Logger := do
  let s ← s.klogLevel stack fuel level parameters
  let s ← s.printf stack fuel format parameters true
  s.printf stack fuel (literal "\n") parameters true

/-- `panic`, up to the loop that it stays in. -/
def panic (message : CString) : Option Logger := do
  let s ← s.klog stack fuel 2 (literal "Kernel panic!") []
  let s ← s.klog stack fuel 2 message []
  let s ← s.log stack fuel 2 (literal "Kernel panic!") []
  s.log stack fuel 2 message []

end

end Logger

/-- The calls of the users of logging. -/
inductive LogCall where
  | log (level : U32) (format : CString) (parameters : List VaArg)
  | klog (level : U32) (format : CString) (parameters : List VaArg)
  | __log (format : CString) (parameters : List VaArg)
  | clear

namespace LogCall

def perform (stack : Memory ℕ) (fuel : ℕ) (s : Logger) : LogCall → Option Logger
  | .log level format parameters => s.log stack fuel level format parameters
  | .klog level format parameters => s.klog stack fuel level format parameters
  | .__log format parameters => s.__log stack fuel format parameters
  | .clear => some { s with vga := s.vga.clear }

/-- Calls one after the other. -/
def performAll (stack : Memory ℕ) (fuel : ℕ) (s : Logger) (calls : List LogCall) : Option Logger :=
  calls.foldlM (perform stack fuel) s

/-- The format of a call and its arguments, of which there may be too many. -/
def Supplied : LogCall → Prop
  | .log _ format parameters | .klog _ format parameters | .__log format parameters =>
    ∃ args, Supplies (pieces format) args ∧ args <+: parameters
  | .clear => True

/-- The length of the format of a call. -/
def size : LogCall → ℕ
  | .log _ format _ | .klog _ format _ | .__log format _ => format.length
  | .clear => 0

end LogCall

/-! ## Text and transcript -/

/-- The bytes of a literal. -/
def bytesOf (s : String) : List U8 := (literal s).map Subtype.val

/-- Text in one colour. -/
structure Span where
  color : U8
  text : List U8

/-- What a level looks like on the screen. -/
def badgeSpans (level : U32) : List Span :=
  let badge (name : String) (color : U8) : List Span :=
    [⟨VGA_COLOR_LIGHT_GREY, bytesOf "["⟩, ⟨color, bytesOf name⟩, ⟨VGA_COLOR_LIGHT_GREY, bytesOf "] "⟩]
  if level = 0 then badge " LOG " VGA_COLOR_GREEN
  else if level = 1 then badge " WARN " VGA_COLOR_LIGHT_RED
  else if level = 2 then badge " ERR " VGA_COLOR_RED
  else []

/-- What a level looks like at the serial port, with the escape sequences for its colour. -/
def badgeText (level : U32) : List U8 :=
  if level = 0 then bytesOf "[\x1b[32mLOG\x1b[39m] "
  else if level = 1 then bytesOf "[\x1b[33mWARN\x1b[39m] "
  else if level = 2 then bytesOf "[\x1b[31mERR\x1b[39m] "
  else if level = 3 then bytesOf "[\x1b[36mDBG\x1b[39m] "
  else []

/-- Text behind the badge of its level. -/
def lineSpans (level : U32) (text : List U8) : List Span := badgeSpans level ++ [⟨VGA_COLOR_LIGHT_GREY, text⟩]

/-- A line of the transcript. -/
def lineText (level : U32) (text : List U8) : List U8 := badgeText level ++ text ++ [0x0A]

/-- What a call adds to the transcript. -/
def LogCall.transcript : LogCall → List U8
  | .klog level format parameters => lineText level (output (pieces format) parameters)
  | _ => []

namespace Console

/-- Text on the terminal. -/
def say (c : Console) (s : Span) : Console :=
  s.text.foldl (fun c ch => c.step (.putChar ch)) (c.step (.setTextColor s.color))

/-- A line on the terminal. -/
def line (c : Console) (level : U32) (text : List U8) : Console :=
  (lineSpans level text ++ [Span.mk VGA_COLOR_LIGHT_GREY [0x0A]]).foldl say c

/-- The screen is made blank, and the cursor stays. -/
def clear (c : Console) : Console := { c with terminal := c.terminal.clear 25 c.blank }

/-- What a call does to the terminal. -/
def perform (c : Console) : LogCall → Console
  | .log level format parameters => c.line level (output (pieces format) parameters)
  | .klog _ _ _ => c
  | .__log format parameters => c.say ⟨VGA_COLOR_LIGHT_GREY, output (pieces format) parameters⟩
  | .clear => c.clear

end Console

/-- The cells of a line. -/
def lineCells (spans : List Span) : List U16 :=
  spans.flatMap fun s => s.text.map fun ch => VGA.vgaEntry ch (VGA.vgaColor s.color VGA_COLOR_BLACK)

/-- Printable text that leaves room for the cursor in its row. -/
structure FitsLine (spans : List Span) : Prop where
  printable : ∀ s ∈ spans, ∀ ch ∈ s.text, 0x20 ≤ ch.toInt
  short : (lineCells spans).length < 80

namespace LogCall

/-- A line on the screen, or a call that does not go there. -/
def IsLine : LogCall → Prop
  | .log level format parameters => FitsLine (lineSpans level (output (pieces format) parameters))
  | .klog _ _ _ => True
  | _ => False

/-- The lines of calls on the screen. -/
def lines : LogCall → List (List U16)
  | .log level format parameters => [lineCells (lineSpans level (output (pieces format) parameters))]
  | _ => []

end LogCall

/-- Pieces that are printed as they stand in the format. -/
def Piece.IsPlain : Piece → Prop
  | .literal _ | .verbatim _ => True
  | _ => False

/-- A message is on the screen and at the serial port, behind a line that announces it. -/
structure PanicShows (c : Console) (s : Logger) (message : CString) (s' : Logger) : Prop where
  screen : Displays s'.vga ((c.line 2 (bytesOf "Kernel panic!")).line 2 (message.map Subtype.val))
  port : s'.sent.reverse = s.sent.reverse ++
    (lineText 2 (bytesOf "Kernel panic!") ++ lineText 2 (message.map Subtype.val)).map (Prod.mk 0x3F8)

end Pros
