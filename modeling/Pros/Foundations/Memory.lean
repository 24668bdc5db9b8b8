import Mathlib.Data.BitVec
import Mathlib.Logic.Function.Basic
import Mathlib.Tactic.Ring

/-!
# Byte memories with little-endian words

A memory maps addresses to bytes and records, as ghost data, the addresses that were stored to. The
address type is arbitrary: machine addresses (`BitVec 32`, where `a + i` wraps) and the indices of an
unbounded array (`ℕ`) are the two instances. A word at `a` is the four bytes at `a`, `a + 1`, `a + 2`
and `a + 3`, least significant byte first.

Loads are determined by the bytes they read (`load32_congr`), stores change only the bytes they name
(`byte_store32_of_ne`), and the two cancel where they meet (`load32_store32`).
-/

/-- Adding the offsets `0`, `1`, `2`, `3` to an address gives four different addresses. -/
class Address (α : Type) [Add α] [NatCast α] : Prop where
  /-- The offsets inside a word are told apart by their addresses. -/
  add_cast_inj : ∀ (a : α) (i j : ℕ), i < 4 → j < 4 → a + (i : α) = a + (j : α) → i = j

instance : Address ℕ where
  add_cast_inj := by
    intro a i j _ _ h
    simpa using h

/-- Machine addresses are told apart by offsets that do not wrap. -/
theorem BitVec.add_cast_inj {w : ℕ} {a : BitVec w} {i j : ℕ} (hi : i < 2 ^ w) (hj : j < 2 ^ w)
    (h : a + (i : BitVec w) = a + (j : BitVec w)) : i = j := by
  have hij : (i : BitVec w) = (j : BitVec w) := by simpa using h
  have hnat := congrArg BitVec.toNat hij
  rwa [BitVec.natCast_eq_ofNat, BitVec.natCast_eq_ofNat, BitVec.toNat_ofNat, BitVec.toNat_ofNat,
    Nat.mod_eq_of_lt hi, Nat.mod_eq_of_lt hj] at hnat

/-- An offset that does not wrap. -/
theorem BitVec.toNat_add_cast {w : ℕ} {a : BitVec w} {n : ℕ} (h : a.toNat + n < 2 ^ w) :
    (a + (n : BitVec w)).toNat = a.toNat + n := by
  rw [BitVec.toNat_add, BitVec.natCast_eq_ofNat, BitVec.toNat_ofNat, Nat.mod_eq_of_lt (show n < 2 ^ w by omega),
    Nat.mod_eq_of_lt h]

instance : Address (BitVec 32) where
  add_cast_inj _ _ _ hi hj h := BitVec.add_cast_inj (hi.trans (by omega)) (hj.trans (by omega)) h

/-- A byte-addressed memory. -/
structure Memory (α : Type) where
  /-- The byte at each address. -/
  byte : α → BitVec 8
  /-- Ghost: the addresses stored to so far, latest first. -/
  written : List α := []

namespace Memory

variable {α : Type} [DecidableEq α]

/-- Store one byte. -/
def store8 (m : Memory α) (a : α) (v : BitVec 8) : Memory α where
  byte := Function.update m.byte a v
  written := a :: m.written

/-- Forget which addresses were stored to. -/
def clearLog (m : Memory α) : Memory α := { m with written := [] }

omit [DecidableEq α] in
@[simp] theorem byte_clearLog (m : Memory α) : m.clearLog.byte = m.byte := rfl

omit [DecidableEq α] in
@[simp] theorem written_clearLog (m : Memory α) : m.clearLog.written = [] := rfl

@[simp] theorem written_store8 (m : Memory α) (a : α) (v : BitVec 8) :
    (m.store8 a v).written = a :: m.written := rfl

theorem byte_store8 (m : Memory α) (a x : α) (v : BitVec 8) :
    (m.store8 a v).byte x = if x = a then v else m.byte x := by
  simp [store8, Function.update_apply]

@[simp] theorem byte_store8_same (m : Memory α) (a : α) (v : BitVec 8) :
    (m.store8 a v).byte a = v := by
  simp [byte_store8]

theorem byte_store8_of_ne {m : Memory α} {a x : α} {v : BitVec 8} (h : x ≠ a) :
    (m.store8 a v).byte x = m.byte x := by
  simp [byte_store8, h]

variable [Add α] [NatCast α]

/-- Load the half-word at `a`, two bytes. -/
def load16 (m : Memory α) (a : α) : BitVec 16 := m.byte (a + (1 : ℕ)) ++ m.byte (a + (0 : ℕ))

/-- Store the half-word `v` at `a`. -/
def store16 (m : Memory α) (a : α) (v : BitVec 16) : Memory α :=
  (m.store8 (a + (0 : ℕ)) (v.extractLsb' 0 8)).store8 (a + (1 : ℕ)) (v.extractLsb' 8 8)

/-- Load the word at `a`. -/
def load32 (m : Memory α) (a : α) : BitVec 32 :=
  m.byte (a + (3 : ℕ)) ++ m.byte (a + (2 : ℕ)) ++ m.byte (a + (1 : ℕ)) ++ m.byte (a + (0 : ℕ))

/-- Store the word `v` at `a`. -/
def store32 (m : Memory α) (a : α) (v : BitVec 32) : Memory α :=
  (((m.store8 (a + (0 : ℕ)) (v.extractLsb' 0 8)).store8 (a + (1 : ℕ)) (v.extractLsb' 8 8)).store8
    (a + (2 : ℕ)) (v.extractLsb' 16 8)).store8 (a + (3 : ℕ)) (v.extractLsb' 24 8)

@[simp] theorem written_store32 (m : Memory α) (a : α) (v : BitVec 32) :
    (m.store32 a v).written =
      (a + (3 : ℕ)) :: (a + (2 : ℕ)) :: (a + (1 : ℕ)) :: (a + (0 : ℕ)) :: m.written := rfl

omit [DecidableEq α] in
/-- A load reads four bytes. -/
theorem load32_congr {m m' : Memory α} {a b : α}
    (h : ∀ i : ℕ, i < 4 → m'.byte (a + (i : α)) = m.byte (b + (i : α))) :
    m'.load32 a = m.load32 b := by
  unfold load32
  rw [h 0 (by omega), h 1 (by omega), h 2 (by omega), h 3 (by omega)]

omit [DecidableEq α] in
/-- The bits of a loaded word. -/
theorem getLsbD_load32 (m : Memory α) (a : α) {j : ℕ} (hj : j < 32) :
    (m.load32 a).getLsbD j = (m.byte (a + ((j / 8 : ℕ) : α))).getLsbD (j % 8) := by
  have hbyte : j / 8 = 0 ∨ j / 8 = 1 ∨ j / 8 = 2 ∨ j / 8 = 3 := by omega
  unfold load32
  simp only [BitVec.getLsbD_append]
  rcases hbyte with h | h | h | h
  · rw [if_pos (by omega), h]
    congr 1; omega
  · rw [if_neg (by omega), if_pos (by omega), h]
    congr 1; omega
  · rw [if_neg (by omega), if_neg (by omega), if_pos (by omega), h]
    congr 1; omega
  · rw [if_neg (by omega), if_neg (by omega), if_neg (by omega), h]
    congr 1; omega

omit [DecidableEq α] in
/-- The bytes of a word. -/
theorem byte_add_eq (m : Memory α) (a : α) {i : ℕ} (hi : i < 4) :
    m.byte (a + (i : α)) = (m.load32 a).extractLsb' (8 * i) 8 := by
  apply BitVec.eq_of_getLsbD_eq
  intro j hj
  have hdiv : (8 * i + j) / 8 = i := by omega
  have hmod : (8 * i + j) % 8 = j := by omega
  rw [BitVec.getLsbD_extractLsb', getLsbD_load32 _ _ (by omega), hdiv, hmod]
  simp [hj]

/-- A store leaves every byte outside its word alone. -/
theorem byte_store32_of_ne {m : Memory α} {a x : α} {v : BitVec 32}
    (h : ∀ i : ℕ, i < 4 → x ≠ a + (i : α)) : (m.store32 a v).byte x = m.byte x := by
  unfold store32
  rw [byte_store8_of_ne (h 3 (by omega)), byte_store8_of_ne (h 2 (by omega)),
    byte_store8_of_ne (h 1 (by omega)), byte_store8_of_ne (h 0 (by omega))]

/-- A store puts the bytes of its word in place. -/
theorem byte_store32 [Address α] (m : Memory α) (a : α) (v : BitVec 32) {i : ℕ} (hi : i < 4) :
    (m.store32 a v).byte (a + (i : α)) = v.extractLsb' (8 * i) 8 := by
  have hne : ∀ j : ℕ, j < 4 → i ≠ j → a + (i : α) ≠ a + (j : α) := fun j hj hij h =>
    hij (Address.add_cast_inj a i j hi hj h)
  unfold store32
  rcases i with _ | _ | _ | _ | i
  · rw [byte_store8_of_ne (hne 3 (by omega) (by omega)),
      byte_store8_of_ne (hne 2 (by omega) (by omega)),
      byte_store8_of_ne (hne 1 (by omega) (by omega)), byte_store8_same]
  · rw [byte_store8_of_ne (hne 3 (by omega) (by omega)),
      byte_store8_of_ne (hne 2 (by omega) (by omega)), byte_store8_same]
  · rw [byte_store8_of_ne (hne 3 (by omega) (by omega)), byte_store8_same]
  · rw [byte_store8_same]
  · omega

/-- Loading the word just stored. -/
@[simp] theorem load32_store32 [Address α] (m : Memory α) (a : α) (v : BitVec 32) :
    (m.store32 a v).load32 a = v := by
  apply BitVec.eq_of_getLsbD_eq
  intro j hj
  rw [getLsbD_load32 _ _ hj, byte_store32 _ _ _ (by omega), BitVec.getLsbD_extractLsb']
  simp [Nat.mod_lt, Nat.div_add_mod]

end Memory
