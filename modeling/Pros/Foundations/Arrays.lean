import Pros.Foundations.Memory

/-!
# Arrays of bytes

`m.bytes a n` are the `n` bytes at `a`, `a + 1`, …. An address type is good for arrays when the offsets that
a 32-bit index can name lead to different addresses (`ArrayAddress`). A store at an index then replaces this
byte and leaves the others alone.
-/

/-- Adding two offsets below `2 ^ 32` to an address gives two different addresses. -/
class ArrayAddress (α : Type) [Add α] [NatCast α] : Prop where
  /-- The indices of an array are told apart by their addresses. -/
  add_cast_inj : ∀ (a : α) (i j : ℕ), i < 2 ^ 32 → j < 2 ^ 32 → a + (i : α) = a + (j : α) → i = j

instance : ArrayAddress ℕ where
  add_cast_inj := by
    intro a i j _ _ h
    simpa using h

instance : ArrayAddress (BitVec 32) where
  add_cast_inj _ _ _ := BitVec.add_cast_inj

namespace Memory

variable {α : Type} [Add α] [NatCast α]

/-- The `n` bytes from `a` on. -/
def bytes (m : Memory α) (a : α) (n : ℕ) : List (BitVec 8) :=
  (List.range n).map fun i => m.byte (a + ((i : ℕ) : α))

@[simp] theorem length_bytes (m : Memory α) (a : α) (n : ℕ) : (m.bytes a n).length = n := by
  simp [bytes]

@[simp] theorem getElem_bytes (m : Memory α) (a : α) {n i : ℕ} (h : i < (m.bytes a n).length) :
    (m.bytes a n)[i] = m.byte (a + (i : α)) := by
  simp [bytes]

@[simp] theorem bytes_zero (m : Memory α) (a : α) : m.bytes a 0 = [] := rfl

/-- One more byte at the end. -/
theorem bytes_succ (m : Memory α) (a : α) (n : ℕ) :
    m.bytes a (n + 1) = m.bytes a n ++ [m.byte (a + (n : α))] := by
  simp [bytes, List.range_succ]

theorem bytes_congr {m m' : Memory α} {a b : α} {n : ℕ}
    (h : ∀ i : ℕ, i < n → m'.byte (a + (i : α)) = m.byte (b + (i : α))) :
    m'.bytes a n = m.bytes b n :=
  List.map_congr_left fun i hi => h i (List.mem_range.mp hi)

variable [DecidableEq α] [ArrayAddress α]

/-- A store at an index, seen from an index. -/
theorem byte_store8_add (m : Memory α) (a : α) (v : BitVec 8) {i k : ℕ} (hi : i < 2 ^ 32)
    (hk : k < 2 ^ 32) :
    (m.store8 (a + (i : α)) v).byte (a + (k : α)) = if k = i then v else m.byte (a + (k : α)) := by
  rw [byte_store8]
  split_ifs with h1 h2 h2
  · rfl
  · exact absurd (ArrayAddress.add_cast_inj a k i hk hi h1) h2
  · exact absurd (h2 ▸ rfl) h1
  · rfl

/-- A store behind the bytes. -/
theorem bytes_store8_of_le {m : Memory α} {a : α} {v : BitVec 8} {n i : ℕ} (h : n ≤ i) (hi : i < 2 ^ 32) :
    (m.store8 (a + (i : α)) v).bytes a n = m.bytes a n := by
  refine bytes_congr ?_
  intro k hk
  rw [byte_store8_add _ _ _ hi (by omega), if_neg (by omega)]

/-- A store right behind the bytes appends one. -/
theorem bytes_store8_succ (m : Memory α) (a : α) (v : BitVec 8) {n : ℕ} (hn : n < 2 ^ 32) :
    (m.store8 (a + (n : α)) v).bytes a (n + 1) = m.bytes a n ++ [v] := by
  rw [bytes_succ, bytes_store8_of_le le_rfl hn, byte_store8_same]

omit [DecidableEq α] [ArrayAddress α] in
/-- The first `n` bytes at `a` have become `v`, and every other byte is as before. -/
structure Fills (m m' : Memory α) (a : α) (n : ℕ) (v : BitVec 8) : Prop where
  inside : ∀ i : ℕ, i < n → m'.byte (a + (i : α)) = v
  outside : ∀ x, (∀ i : ℕ, i < n → x ≠ a + (i : α)) → m'.byte x = m.byte x

/-! ## Which bytes of an array are stored to -/

omit [DecidableEq α] [ArrayAddress α] in
/-- What was stored to between two memories are the first `n` bytes at `a`, each at least once. -/
def WritesArray (m m' : Memory α) (a : α) (n : ℕ) : Prop :=
  ∀ w, w ∈ m'.written ↔ w ∈ m.written ∨ ∃ k < n, w = a + ((k : ℕ) : α)

namespace WritesArray

variable {m m' : Memory α} {a : α} {n : ℕ}

omit [DecidableEq α] [ArrayAddress α] in
theorem refl (m : Memory α) (a : α) : WritesArray m m a 0 := by
  intro w
  simp

omit [ArrayAddress α] in
/-- A store right behind the bytes. -/
theorem store8_succ (h : WritesArray m m' a n) (v : BitVec 8) :
    WritesArray m (m'.store8 (a + (n : α)) v) a (n + 1) := by
  intro w
  rw [written_store8, List.mem_cons, h w]
  constructor
  · rintro (hw | hw | ⟨k, hk, hw⟩)
    · exact Or.inr ⟨n, by omega, hw⟩
    · exact Or.inl hw
    · exact Or.inr ⟨k, by omega, hw⟩
  · rintro (hw | ⟨k, hk, hw⟩)
    · exact Or.inr (Or.inl hw)
    · by_cases hkn : k = n
      · exact Or.inl (by rw [hw, hkn])
      · exact Or.inr (Or.inr ⟨k, by omega, hw⟩)

omit [ArrayAddress α] in
/-- Another store to one of the bytes. -/
theorem store8_lt (h : WritesArray m m' a n) {i : ℕ} (hi : i < n) (v : BitVec 8) :
    WritesArray m (m'.store8 (a + (i : α)) v) a n := by
  intro w
  rw [written_store8, List.mem_cons, h w]
  constructor
  · rintro (hw | hw)
    · exact Or.inr ⟨i, hi, hw⟩
    · exact hw
  · exact Or.inr

end WritesArray

end Memory

/-! ## Updates one after the other -/

/-- If an update makes something `val c` when it concerns it, and leaves it alone otherwise, then after a list of
    updates it is what the last one that concerns it has made it. -/
theorem List.foldl_last {σ κ β : Type} {upd : σ → κ → σ} (obs : σ → β) {P : κ → Bool} {val : κ → β}
    (h : ∀ s c, obs (upd s c) = if P c then val c else obs s) (s : σ) (cs : List κ) :
    obs (cs.foldl upd s) = ((cs.reverse.find? P).map val).getD (obs s) := by
  induction cs using List.reverseRecOn with
  | nil => rfl
  | append_singleton cs c ih =>
    rw [foldl_append, foldl_cons, foldl_nil, h, reverse_append, reverse_singleton, singleton_append, find?_cons]
    cases P c with
    | true => rfl
    | false => exact ih

/-- An address is at its offset from another one. -/
theorem BitVec.add_natCast_sub {w : ℕ} (a x : BitVec w) : a + (((x - a).toNat : ℕ) : BitVec w) = x := by
  rw [BitVec.natCast_eq_ofNat, BitVec.ofNat_toNat, BitVec.setWidth_eq, BitVec.add_comm, BitVec.sub_add_cancel]
