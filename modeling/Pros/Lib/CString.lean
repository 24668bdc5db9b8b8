import Pros.Lib.Types

/-!
# C strings

The string functions of `String.cpp` that the file system uses. A C string is given by the characters
before its terminator, so none of them is zero. The functions that take a string apart in place are only
used on fresh copies, and return the pieces.
-/

namespace Pros

/-- A character other than the terminator. -/
abbrev CChar := { c : U8 // c ≠ 0 }

/-- The characters of a string, without its terminator. -/
abbrev CString := List CChar

/-- `'/'`. -/
def slash : CChar := ⟨0x2F, by decide⟩

def strlen (str : CString) : ℕ := str.length

/-- `strcmp`, the terminator counting as 0. -/
def strcmp : CString → CString → ℤ
  | [], [] => 0
  | [], b :: _ => 0 - (b.val.toNat : ℤ)
  | a :: _, [] => (a.val.toNat : ℤ) - 0
  | a :: as, b :: bs => if a ≠ b then (a.val.toNat : ℤ) - b.val.toNat else strcmp as bs

/-- `strdup`, for an allocation that succeeds. -/
def strdup (src : CString) : CString := src

/-- `strsep` on a string: the token, and what `*stringp` points to afterwards. -/
def strsepOf (delim : CString) : CString → CString × Option CString
  | [] => ([], none)
  | c :: s =>
    if c ∈ delim then ([], some s)
    else
      let (tok, rest) := strsepOf delim s
      (c :: tok, rest)

/-- `strsep`, where `*stringp` may be null. -/
def strsep (stringp : Option CString) (delim : CString) : Option CString × Option CString :=
  match stringp with
  | none => (none, none)
  | some s =>
    let (tok, rest) := strsepOf delim s
    (some tok, rest)

theorem strsepOf_rest_lt {delim s tok r : CString} (h : strsepOf delim s = (tok, some r)) :
    r.length < s.length := by
  induction s generalizing tok with
  | nil => cases h
  | cons c s ih =>
    rw [strsepOf] at h
    split_ifs at h with hc
    · simp only [Prod.mk.injEq, Option.some.injEq] at h
      rw [← h.2, List.length_cons]
      omega
    · simp only [Prod.mk.injEq] at h
      have := ih (Prod.ext rfl h.2)
      rw [List.length_cons]
      omega

/-- How often `strsep` can still be called before the pointer is null. -/
def sepSize (stringp : Option CString) : ℕ := (stringp.map fun s => s.length + 1).getD 0

theorem sepSize_strsep_lt {delim tok : CString} {stringp rest : Option CString}
    (h : strsep stringp delim = (some tok, rest)) : sepSize rest < sepSize stringp := by
  cases stringp with
  | none => cases h
  | some s =>
    simp only [strsep, Prod.mk.injEq] at h
    cases rest with
    | none => exact Nat.succ_pos _
    | some r => exact Nat.succ_lt_succ (strsepOf_rest_lt (Prod.ext rfl h.2))

end Pros
