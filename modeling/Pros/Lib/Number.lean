import Pros.Lib.Types

/-!
# Numbers as text

`countDigit`, `itos` and what they use from `String.cpp`. The loops that divide by the base run at most `fuel`
times, and give `none` when they have not ended by then; so does a division by zero.
-/

namespace Pros

/-- The loop of `countDigit`. -/
def countDigitLoop (base : U32) : (fuel : ℕ) → (n count : U32) → Option U32
  | 0, n, count => if n ≠ 0 then none else some count
  | fuel + 1, n, count =>
    if n ≠ 0 then
      if base = 0 then none else countDigitLoop base fuel (n / base) (count + 1)
    else some count

/-- `countDigit`. -/
def countDigit (fuel : ℕ) (n base : U32) : Option U32 :=
  if n = 0 then some 1 else countDigitLoop base fuel n 0

/-- `abs`. Its argument is unsigned, so the comparison always holds. -/
def abs (n : U32) : U32 := if n >= 0 then n else -n

variable {α : Type} [DecidableEq α] [Add α] [NatCast α]

/-- `swap`. -/
def swap (m : Memory α) (x y : α) : Memory α :=
  let t := m.byte x
  let m := m.store8 x (m.byte y)
  m.store8 y t

/-- `reverse`, for indices that are not negative. -/
def reverse (m : Memory α) (buffer : α) (i : ℕ) : (j : ℕ) → Memory α
  | 0 => m
  | j + 1 =>
    if i < j + 1 then
      reverse (swap m (buffer + (i : α)) (buffer + ((j + 1 : ℕ) : α))) buffer (i + 1) j
    else m

/-- What the loop of `itos` stores for the remainder `r`. -/
def digitChar (r : U32) : U8 :=
  if r >= 10 then (65 + (r - 10)).setWidth 8 else (48 + r).setWidth 8

/-- The loop of `itos` that stores the digits, the last one first. -/
def itosLoop (buffer : α) (base : U32) : (fuel : ℕ) → Memory α → (n i : U32) → Option (Memory α × U32)
  | 0, m, n, i => if n ≠ 0 then none else some (m, i)
  | fuel + 1, m, n, i =>
    if n ≠ 0 then
      let r := n % base
      itosLoop buffer base fuel (m.store8 (buffer + (i.toNat : α)) (digitChar r)) (n / base) (i + 1)
    else some (m, i)

/-- `itos`. -/
def itos (fuel : ℕ) (m : Memory α) (value : U32) (buffer : α) (base : U32) : Option (Memory α) :=
  if base.slt 2 || (32 : U32).slt base then some m
  else do
    let n := abs value
    let (m, i) ← itosLoop buffer base fuel m n 0
    let (m, i) := if i = 0 then (m.store8 (buffer + (i.toNat : α)) 0x30, i + 1) else (m, i)
    -- `value < 0`, of an unsigned value
    let (m, i) :=
      if value < 0 ∧ base = 10 then (m.store8 (buffer + (i.toNat : α)) 0x2D, i + 1) else (m, i)
    let m := m.store8 (buffer + (i.toNat : α)) 0
    return reverse m buffer 0 (i - 1).toNat

end Pros
