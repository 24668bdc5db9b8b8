import Pros.Foundations.Arrays
import Pros.Lib.CString
import Pros.Lib.Number

/-!
# `printf`

The function behind all logging in `Log.cpp`. `format` is an index into the string that was passed; reading
behind its terminator, or taking an argument that is not there or of another type, gives `none`. What the print
function does with the bytes (the screen, or the serial port) is left out.
-/

namespace Pros

/-- An argument in a `va_list`. -/
inductive VaArg where
  | int (n : U32)
  | str (s : CString)

/-- What `printf` works on. -/
structure PrintState where
  /-- `format`. -/
  pos : ℕ
  parameters : List VaArg
  /-- The bytes passed to the print function so far. -/
  out : List U8
  /-- Ghost: the values that `format` has had, latest first. -/
  visited : List ℕ

/-- `str[i]`, for an index up to that of the terminator. -/
def charAt : CString → (i : ℕ) → Option U8
  | [], 0 => some 0
  | [], _ + 1 => none
  | c :: _, 0 => some c.val
  | _ :: str, i + 1 => charAt str i

/-- The `length` characters from index `i` on. -/
def chars (str : CString) (i : ℕ) : (length : ℕ) → Option (List U8)
  | 0 => some []
  | length + 1 => do
    let c ← charAt str i
    let cs ← chars str (i + 1) length
    return c :: cs

namespace PrintState

/-- `format = p`. -/
def move (s : PrintState) (p : ℕ) : PrintState := { s with pos := p, visited := p :: s.visited }

/-- A call of the print function. -/
def print (s : PrintState) (data : List U8) : PrintState := { s with out := s.out ++ data }

/-- `va_arg` of an `int` or a `u32`. -/
def argInt (s : PrintState) : Option (U32 × PrintState) :=
  match s.parameters with
  | .int n :: args => some (n, { s with parameters := args })
  | _ => none

/-- `va_arg` of a `const char*`. -/
def argStr (s : PrintState) : Option (CString × PrintState) :=
  match s.parameters with
  | .str t :: args => some (t, { s with parameters := args })
  | _ => none

end PrintState

/-- The loop of `printf` that finds the end of literal text. -/
def literalLoop (format : CString) (pos : ℕ) : (fuel amount : ℕ) → Option ℕ
  | 0, _ => none
  | fuel + 1, amount => do
    let c ← charAt format (pos + amount)
    if c ≠ 0 ∧ c ≠ 0x25 then literalLoop format pos fuel (amount + 1) else some amount

/-- The text that `%d` and `%x` print. `stack` is what the array `str` holds before `itos` is called. The array is
    a memory of its own, so that the terminator, which `itos` stores behind its last byte, meets nothing else. -/
def numberChars (stack : Memory ℕ) (fuel : ℕ) (n base : U32) : Option (List U8) := do
  let numChars ← countDigit fuel n base
  let str ← itos fuel stack n 0 base
  return str.bytes 0 numChars.toNat

/-- One round of the loop in `printf`. -/
def printfRound (stack : Memory ℕ) (fuel : ℕ) (format : CString) (s : PrintState) : Option PrintState := do
  let c ← charAt format s.pos
  -- the second character is only looked at behind a '%'
  let literal ← if c ≠ 0x25 then some true else (charAt format (s.pos + 1)).map (· == 0x25)
  if literal then
    let s := if c = 0x25 then s.move (s.pos + 1) else s
    let amount ← literalLoop format s.pos fuel 1
    let data ← chars format s.pos amount
    return (s.print data).move (s.pos + amount)
  else
    let formatBegunAt := s.pos
    let s := s.move (s.pos + 1)
    let c ← charAt format s.pos
    if c = 0x63 then
      let (n, s) ← (s.move (s.pos + 1)).argInt
      return s.print [n.setWidth 8]
    else if c = 0x73 then
      let (str, s) ← (s.move (s.pos + 1)).argStr
      let data ← chars str 0 (strlen str)
      return s.print data
    else if c = 0x64 then
      let (n, s) ← (s.move (s.pos + 1)).argInt
      let data ← numberChars stack fuel n 10
      return s.print data
    else if c = 0x78 then
      let (n, s) ← (s.move (s.pos + 1)).argInt
      let data ← numberChars stack fuel n 16
      return s.print data
    else
      let s := s.move formatBegunAt
      let len := strlen (format.drop s.pos)
      let data ← chars format s.pos len
      return (s.print data).move (s.pos + len)

/-- The loop of `printf`, for at most `left` rounds. -/
def printfLoop (stack : Memory ℕ) (fuel : ℕ) (format : CString) : (left : ℕ) → PrintState → Option PrintState
  | 0, _ => none
  | left + 1, s => do
    let c ← charAt format s.pos
    if c ≠ 0 then
      let s ← printfRound stack fuel format s
      printfLoop stack fuel format left s
    else some s

/-- `printf`: what it has printed, and what it leaves in the `va_list`. -/
def printf (stack : Memory ℕ) (fuel : ℕ) (format : CString) (parameters : List VaArg) : Option PrintState :=
  printfLoop stack fuel format fuel { pos := 0, parameters := parameters, out := [], visited := [0] }

end Pros
