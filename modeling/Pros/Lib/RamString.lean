import Pros.Lib.CString
import Pros.Foundations.Arrays
import Pros.Foundations.Tiling
import Mathlib.Data.Nat.Cast.Basic

/-!
# C strings in memory

The string functions of `String.cpp` as they go through memory, byte by byte. The loops take fuel and give
`none` when it does not last. What they load is recorded, so that it can be said that they stay inside their
strings.

`strcpy` and `strcat` are given the characters of their source, which is not in the memory they store to.
-/

namespace Pros

namespace RamString

variable {α : Type} [AddCommMonoidWithOne α]

/-- A memory that is watched. -/
structure Watched (α : Type) where
  mem : Memory α
  /-- Ghost: the addresses loaded from so far, latest first. -/
  loads : List α

namespace Watched

def load (w : Watched α) (a : α) : U8 × Watched α := (w.mem.byte a, { w with loads := a :: w.loads })

def store [DecidableEq α] (w : Watched α) (a : α) (v : U8) : Watched α := { w with mem := w.mem.store8 a v }

end Watched

/-! ## Comparing -/

/-- What `strcmp` returns: the difference of the characters as unsigned ones. -/
def difference (w : Watched α) (a b : α) : ℤ × Watched α :=
  let (x, w) := w.load a
  let (y, w) := w.load b
  ((x.toNat : ℤ) - y.toNat, w)

/-- `strcmp`. -/
def strcmp : (fuel : ℕ) → (w : Watched α) → (a b : α) → Option (ℤ × Watched α)
  | 0, _, _, _ => none
  | fuel + 1, w, a, b =>
    let (c, w) := w.load a
    if c ≠ 0 then
      let (x, w) := w.load a
      let (y, w) := w.load b
      if x ≠ y then some (difference w a b) else strcmp fuel w (a + 1) (b + 1)
    else some (difference w a b)

/-! ## Taking apart -/

/-- The inner loop of `strsep`: is `c` one of the characters from `spanp` on, or their terminator? -/
def span : (fuel : ℕ) → (w : Watched α) → (c : U8) → (spanp : α) → Option (Bool × Watched α)
  | 0, _, _, _ => none
  | fuel + 1, w, c, spanp =>
    let (sc, w) := w.load spanp
    if sc = c then some (true, w)
    else if sc ≠ 0 then span fuel w c (spanp + 1)
    else some (false, w)

/-- The outer loop of `strsep`, from `s` on: what `*stringp` is set to. -/
def strsepFrom (fuel : ℕ) (delim : U32) : (left : ℕ) → (w : Watched U32) → (s : U32) →
    Option (U32 × Watched U32)
  | 0, _, _ => none
  | left + 1, w, s => do
    let (c, w) := w.load s
    let (found, w) ← span fuel w c delim
    if found then
      if c = 0 then return (nullptr, w) else return (s + 1, w.store s 0)
    else strsepFrom fuel delim left w (s + 1)

/-- `strsep`: the token, and what `*stringp` is afterwards. -/
def strsep (fuel : ℕ) (w : Watched U32) (stringp delim : U32) : Option (U32 × U32 × Watched U32) :=
  if stringp = nullptr then some (nullptr, stringp, w)
  else do
    let (s, w) ← strsepFrom fuel delim fuel w stringp
    return (stringp, s, w)

/-- Calling `strsep` until it returns null: the tokens, each with the memory when it is returned, and the memory
    at the end. -/
def strsepAll (fuel : ℕ) (delim : U32) : (calls : ℕ) → (w : Watched U32) → (stringp : U32) →
    Option (List (U32 × Ram) × Watched U32)
  | 0, _, _ => none
  | calls + 1, w, stringp => do
    let (tok, stringp, w) ← strsep fuel w stringp delim
    if tok = nullptr then return ([], w)
    else
      let (toks, w') ← strsepAll fuel delim calls w stringp
      return ((tok, w.mem) :: toks, w')

/-! ## Building -/

section Build

variable [DecidableEq α]

/-- `strlen`, with `len` characters counted. -/
def strlenFrom (m : Memory α) (str : α) : (fuel : ℕ) → (len : U32) → Option U32
  | 0, _ => none
  | fuel + 1, len => if m.byte (str + (len.toNat : α)) ≠ 0 then strlenFrom m str fuel (len + 1) else some len

def strlen (fuel : ℕ) (m : Memory α) (str : α) : Option U32 := strlenFrom m str fuel 0

/-- `strcpy`. -/
def strcpy (m : Memory α) (strDest : α) : (strSrc : CString) → Memory α
  | [] => m.store8 strDest 0
  | c :: strSrc => strcpy (m.store8 strDest c.val) (strDest + 1) strSrc

/-- `strcat`. -/
def strcat (fuel : ℕ) (m : Memory α) (destination : α) (source : CString) : Option (Memory α) := do
  let len ← strlen fuel m destination
  return strcpy m (destination + (len.toNat : α)) source

end Build

/-! ## Strings in memory -/

/-- The characters of `s` and a terminator are at `p`. -/
def StringAt (m : Memory α) : (p : α) → (s : CString) → Prop
  | p, [] => m.byte p = 0
  | p, c :: s => m.byte p = c.val ∧ StringAt m (p + 1) s

/-- The addresses of a string of `n` characters at `p`, with its terminator. -/
def Within (p : α) (n : ℕ) (x : α) : Prop := ∃ i ≤ n, x = p + (i : α)

/-- A string object: it is not at null, and does not wrap around. -/
structure StringObject (m : Ram) (p : U32) (s : CString) : Prop where
  stringAt : StringAt m p s
  ne_nullptr : p ≠ nullptr
  contiguous : p.toNat + s.length < 2 ^ 32

/-- No delimiter in the string at `p` is at the same time a byte of the delimiters' own string at `d`. -/
def Apart (p : α) (s : CString) (d : α) (delim : CString) : Prop :=
  ∀ l c r, s = l ++ c :: r → c ∈ delim → ¬ Within d delim.length (p + ((l.length : ℕ) : α))

/-- A call of `strcmp` on two strings returns `d`, and loads only from the two. -/
def Compares (m : Memory α) (p : α) (a : CString) (q : α) (b : CString) (d : ℤ) : Prop :=
  ∀ fuel, a.length < fuel → ∃ w, strcmp fuel ⟨m, []⟩ p q = some (d, w) ∧ w.mem = m ∧
    ∀ x ∈ w.loads, Within p a.length x ∨ Within q b.length x

/-- The pieces of a string between its delimiters, each with the index where it begins. -/
def piecesAt (delim s : CString) : List (ℕ × CString) :=
  Tiling.positions (fun piece => piece.length + 1) 0 (s.splitOnP fun c => delim.contains c)

/-- The string at `p` is taken apart: the tokens point to its pieces, which are strings from then on, and of its
    bytes and all others only the delimiters are changed. -/
structure TakenApart (m m' : Ram) (p : U32) (s delim : CString) (toks : List (U32 × Ram)) : Prop where
  tokens : List.Forall₂ (fun tok piece => tok.1 = p + ((piece.1 : ℕ) : U32) ∧
    StringAt tok.2 tok.1 piece.2 ∧ StringAt m' tok.1 piece.2) toks (piecesAt delim s)
  cut : ∀ l c r, s = l ++ c :: r → c ∈ delim → m'.byte (p + ((l.length : ℕ) : U32)) = 0
  kept : ∀ x, (∀ l c r, s = l ++ c :: r → c ∈ delim → x ≠ p + ((l.length : ℕ) : U32)) →
    m'.byte x = m.byte x

end RamString

end Pros
