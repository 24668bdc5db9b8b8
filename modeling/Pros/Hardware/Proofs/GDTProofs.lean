import Pros.Hardware.GDT
import Pros.Lib.Proofs.RamProofs
import Pros.Foundations.BitFields

/-!
# What is in the descriptor table

A call of `setEntry` changes the eight bytes of its entry, and `memset` clears the one behind them (`byte_perform`).
So a descriptor loses the low byte of its limit to a later call for the entry before (`byte_performAll`).
-/

namespace Pros

namespace GDT

variable {m : Ram} {entries x : U32} {i k o : ℕ} {c : Call} {calls post : List Call}

/-! ## Bytes of an entry -/

/-- The fields that a call stores. -/
def Call.fields (c : Call) : GDTEntry where
  limitLow := (c.limit &&& 0xFFFF).setWidth 16
  baseLow := (c.base &&& 0xFFFF).setWidth 16
  baseMiddle := ((c.base >>> 16) &&& 0xFF).setWidth 8
  access := c.access
  granularity := ((c.limit >>> 16) &&& 0x0F).setWidth 8 ||| (c.gran &&& 0xF0)
  baseHigh := ((c.base >>> 24) &&& 0xFF).setWidth 8

/-- The bytes of an entry in the order of memory. -/
def bytesOf (e : GDTEntry) : (k : ℕ) → U8
  | 0 => e.limitLow.extractLsb' 0 8
  | 1 => e.limitLow.extractLsb' 8 8
  | 2 => e.baseLow.extractLsb' 0 8
  | 3 => e.baseLow.extractLsb' 8 8
  | 4 => e.baseMiddle
  | 5 => e.access
  | 6 => e.granularity
  | _ => e.baseHigh

theorem byte_store16_add (m : Ram) (a : U32) (v : U16) {i k : ℕ} (hi : i + 1 < 2 ^ 32) (hk : k < 2 ^ 32) :
    (m.store16 (a + (i : U32)) v).byte (a + (k : U32)) =
      if k = i + 1 then v.extractLsb' 8 8 else if k = i then v.extractLsb' 0 8 else m.byte (a + (k : U32)) := by
  simp only [Memory.store16, add_assoc, ← Nat.cast_add, Nat.add_zero]
  rw [Memory.byte_store8_add _ _ _ hi hk, Memory.byte_store8_add _ _ _ (Nat.lt_of_succ_lt hi) hk]

theorem byte_memset_eight (m : Ram) (p : U32) (hk : k < 2 ^ 32) :
    (memset m p 0 8).byte (p + (k : U32)) = if 0 < k ∧ k ≤ 8 then 0 else m.byte (p + (k : U32)) := by
  split_ifs with h
  · exact byte_memset_add m p 0 h.1 h.2
  · refine byte_memset_of_ne fun j h1 h2 heq => ?_
    have := ArrayAddress.add_cast_inj p k j hk (by omega) heq
    omega

/-- A call, seen from its entry. -/
theorem byte_setEntry (m : Ram) (entries : U32) (c : Call) (hk : k < 2 ^ 32) :
    (c.perform entries m).byte (entry entries c.i + (k : U32)) =
      if k < 8 then bytesOf c.fields k else if k = 8 then 0 else m.byte (entry entries c.i + (k : U32)) := by
  unfold Call.perform setEntry
  generalize entry entries c.i = p
  dsimp only [GDTEntry.size]
  rw [Memory.byte_store8_same, Memory.byte_store8_add _ _ _ (by omega) hk, Memory.byte_store8_add _ _ _ (by omega) hk,
    Memory.byte_store8_add _ _ _ (by omega) hk, byte_store16_add _ _ _ (by omega) hk,
    Memory.byte_store8_add _ _ _ (by omega) hk, Memory.byte_store8_add _ _ _ (by omega) hk,
    byte_store16_add _ _ _ (by omega) hk, byte_memset_eight m p hk]
  -- The bytes of the fields, the one that only `memset` stores to, and the rest of the memory.
  have hcases : k = 0 ∨ k = 1 ∨ k = 2 ∨ k = 3 ∨ k = 4 ∨ k = 5 ∨ k = 6 ∨ k = 7 ∨ k = 8 ∨ 8 < k := by omega
  rcases hcases with rfl | rfl | rfl | rfl | rfl | rfl | rfl | rfl | rfl | hgt <;> try rfl
  repeat rw [if_neg (by omega)]

/-- What a call does to the memory: the bytes of its entry are the fields, the one behind them is cleared. -/
theorem byte_perform (m : Ram) (entries : U32) (c : Call) (ho : (x - entries).toNat = o) :
    (c.perform entries m).byte x =
      if 8 * c.i ≤ o ∧ o < 8 * c.i + 8 then bytesOf c.fields (o - 8 * c.i)
      else if o = 8 * c.i + 8 then 0 else m.byte x := by
  have hi : c.i < 5 := c.i_lt
  have hlt := (x - entries).isLt
  have hx : x = entry entries c.i + (((x - entry entries c.i).toNat : ℕ) : U32) := by
    rw [BitVec.natCast_eq_ofNat, BitVec.ofNat_toNat, BitVec.setWidth_eq, add_sub_cancel]
  have hoff : (x - entry entries c.i).toNat = (2 ^ 32 - 8 * c.i + o) % 2 ^ 32 := by
    have hmod : 8 * c.i % 2 ^ 32 = 8 * c.i := Nat.mod_eq_of_lt (by omega)
    rw [entry, GDTEntry.size, sub_add_eq_sub_sub, BitVec.toNat_sub, ho, BitVec.natCast_eq_ofNat,
      BitVec.toNat_ofNat, hmod]
  rw [hx, byte_setEntry _ _ _ (x - entry entries c.i).isLt, ← hx, hoff]
  by_cases hin : 8 * c.i ≤ o ∧ o < 8 * c.i + 8
  · rw [if_pos hin, if_pos (by omega), show (2 ^ 32 - 8 * c.i + o) % 2 ^ 32 = o - 8 * c.i by omega]
  · rw [if_neg hin, if_neg (by omega)]
    refine if_congr ⟨?_, ?_⟩ rfl rfl <;> omega

theorem performAll_append (m : Ram) (entries : U32) (calls calls' : List Call) :
    performAll entries m (calls ++ calls') = performAll entries (performAll entries m calls) calls' :=
  List.foldl_append

theorem performAll_cons (m : Ram) (entries : U32) (c : Call) (calls : List Call) :
    performAll entries m (c :: calls) = performAll entries (c.perform entries m) calls := rfl

/-- The byte behind the entries of a sequence of calls is cleared, one that is in none of them else kept. -/
theorem byte_performAll (ho : (x - entries).toNat = o)
    (hnone : ∀ d ∈ calls, ¬ (8 * d.i ≤ o ∧ o < 8 * d.i + 8)) :
    (performAll entries m calls).byte x = if ∃ d ∈ calls, o = 8 * d.i + 8 then 0 else m.byte x := by
  induction calls generalizing m with
  | nil => exact (if_neg fun ⟨d, hd, _⟩ => List.not_mem_nil hd).symm
  | cons c calls ih =>
    have hc := hnone c List.mem_cons_self
    rw [performAll_cons, ih fun d hd => hnone d (List.mem_cons_of_mem _ hd), byte_perform _ _ _ ho, if_neg hc]
    by_cases hd : ∃ d ∈ calls, o = 8 * d.i + 8
    · obtain ⟨d, hd, heq⟩ := hd
      rw [if_pos ⟨d, hd, heq⟩, if_pos ⟨d, List.mem_cons_of_mem _ hd, heq⟩]
    · rw [if_neg hd]
      refine if_congr ?_ rfl rfl
      simp only [List.mem_cons, exists_eq_or_imp, hd, or_false]

theorem toNat_entry_sub (entries : U32) (hi : i ≤ GDT_MAX_ENTRIES) (hk : k < 8) :
    (entry entries i + (k : U32) - entries).toNat = 8 * i + k := by
  have hi' : i ≤ 5 := hi
  rw [entry, GDTEntry.size, add_assoc, add_sub_cancel_left, ← Nat.cast_add, BitVec.natCast_eq_ofNat,
    BitVec.toNat_ofNat, Nat.mod_eq_of_lt (by omega)]

/-- The bytes of an entry, after the last call for it. -/
theorem byte_last (hlast : Last calls c post) (hk : k < 8) :
    (performAll entries m calls).byte (entry entries c.i + (k : U32)) =
      if k = 0 ∧ ∃ d ∈ post, d.i + 1 = c.i then 0 else bytesOf c.fields k := by
  obtain ⟨⟨pre, rfl⟩, hpost⟩ := hlast
  have hin : 8 * c.i ≤ 8 * c.i + k ∧ 8 * c.i + k < 8 * c.i + 8 := by omega
  have ho := toNat_entry_sub entries c.i_lt.le hk
  rw [performAll_append, performAll_cons, byte_performAll ho fun d hd hin => hpost d hd (by omega),
    byte_perform _ _ _ ho, if_pos hin, Nat.add_sub_cancel_left]
  refine if_congr ⟨?_, ?_⟩ rfl rfl
  · rintro ⟨d, hd, heq⟩
    exact ⟨by omega, d, hd, by omega⟩
  · rintro ⟨rfl, d, hd, heq⟩
    exact ⟨d, hd, by omega⟩

/-! ## What is decoded -/

/-- The two bytes of a half-word. -/
theorem append_extractLsb' (v : U16) : v.extractLsb' 8 8 ++ v.extractLsb' 0 8 = v := by
  rw [BitVec.extractLsb'_append_extractLsb'_eq_extractLsb' (show 8 = 0 + 8 from rfl), BitVec.extractLsb'_eq_self]

theorem base_fields (c : Call) :
    c.fields.baseHigh ++ c.fields.baseMiddle ++ c.fields.baseLow = c.base := by
  dsimp only [Call.fields]
  rw [BitField.setWidth_ushiftRight_and (by decide), BitField.setWidth_ushiftRight_and (by decide),
    BitField.setWidth_and_eq_extractLsb' (by omega) (by decide),
    BitVec.extractLsb'_append_extractLsb'_eq_extractLsb' (show 24 = 16 + 8 from rfl),
    BitVec.extractLsb'_append_extractLsb'_eq_extractLsb' (show 16 = 0 + 16 from rfl)]
  exact BitVec.extractLsb'_eq_self

/-- The bytes of the lower half of the limit. -/
theorem extractLsb'_limitLow (c : Call) {n : ℕ} (hn : n + 8 ≤ 16) :
    c.fields.limitLow.extractLsb' n 8 = c.limit.extractLsb' n 8 := by
  dsimp only [Call.fields]
  rw [BitField.setWidth_and (by decide), BitVec.extractLsb'_setWidth_of_le hn]

/-- The lower half of the granularity byte has the upper bits of the limit, the upper half the flags. -/
theorem getLsbD_granularity (c : Call) {j : ℕ} (hj : j < 8) :
    c.fields.granularity.getLsbD j = if j < 4 then c.limit.getLsbD (16 + j) else c.gran.getLsbD j := by
  have hcases : j = 0 ∨ j = 1 ∨ j = 2 ∨ j = 3 ∨ j = 4 ∨ j = 5 ∨ j = 6 ∨ j = 7 := by omega
  unfold Call.fields
  rcases hcases with rfl | rfl | rfl | rfl | rfl | rfl | rfl | rfl <;> simp

theorem limit_granularity (c : Call) : c.fields.granularity.extractLsb' 0 4 = c.limit.extractLsb' 16 4 := by
  apply BitVec.eq_of_getLsbD_eq
  intro j hj
  rw [BitVec.getLsbD_extractLsb', BitVec.getLsbD_extractLsb', getLsbD_granularity c (by omega), Nat.zero_add, if_pos hj]

theorem flags_granularity (c : Call) : c.fields.granularity.extractLsb' 4 4 = c.gran.extractLsb' 4 4 := by
  apply BitVec.eq_of_getLsbD_eq
  intro j hj
  rw [BitVec.getLsbD_extractLsb', BitVec.getLsbD_extractLsb', getLsbD_granularity c (by omega), if_neg (by omega)]

/-- The limit is what was asked for, if its low byte is. -/
theorem limit_iff (c : Call) (b : U8) :
    c.fields.granularity.extractLsb' 0 4 ++ (c.fields.limitLow.extractLsb' 8 8 ++ b) = c.limit.setWidth 20 ↔
      b = c.limit.setWidth 8 := by
  have hlimit : c.limit.setWidth 20 =
      c.limit.extractLsb' 16 4 ++ (c.limit.extractLsb' 8 8 ++ c.limit.setWidth 8) := by
    rw [BitVec.setWidth_eq_extractLsb' (by omega), BitVec.setWidth_eq_extractLsb' (by omega),
      BitVec.extractLsb'_append_extractLsb'_eq_extractLsb' (show 8 = 0 + 8 from rfl),
      BitVec.extractLsb'_append_extractLsb'_eq_extractLsb' (show 16 = 0 + (8 + 8) from rfl)]
  rw [limit_granularity, extractLsb'_limitLow c (by omega), hlimit, BitVec.append_right_inj, BitVec.append_right_inj]

/-- An entry with the fields of a call but for its first byte. -/
theorem decode_iff {p : U32} (hb : ∀ k : ℕ, 1 ≤ k → k < 8 → m.byte (p + (k : U32)) = bytesOf c.fields k) :
    decode (loadEntry m p) = c.segment ↔ m.byte (p + ((0 : ℕ) : U32)) = c.limit.setWidth 8 := by
  have hload : loadEntry m p =
      { c.fields with limitLow := c.fields.limitLow.extractLsb' 8 8 ++ m.byte (p + ((0 : ℕ) : U32)) } := by
    unfold loadEntry
    simp only [Memory.load16, add_assoc, ← Nat.cast_add, Nat.zero_add, Nat.reduceAdd]
    simp (disch := omega) only [hb, bytesOf, append_extractLsb']
  rw [hload, decode, Call.segment, Segment.mk.injEq]
  constructor
  · rintro ⟨-, hlimit, -⟩
    exact (limit_iff c _).mp hlimit
  · intro hlow
    exact ⟨base_fields c, (limit_iff c _).mpr hlow, rfl, flags_granularity c⟩

/-! ## The table after any calls -/

/-- A descriptor stays as it was asked for unless a later call for the entry before takes something from its
    limit. -/
theorem decode_last_iff (hlast : Last calls c post) :
    decode (loadEntry (performAll entries m calls) (entry entries c.i)) = c.segment ↔
      ((∃ d ∈ post, d.i + 1 = c.i) → c.limit.setWidth 8 = 0#8) := by
  have hrest : ∀ k : ℕ, 1 ≤ k → k < 8 →
      (performAll entries m calls).byte (entry entries c.i + (k : U32)) = bytesOf c.fields k := by
    intro k h1 hk
    rw [byte_last hlast hk, if_neg (by omega)]
  have hlow : bytesOf c.fields 0 = c.limit.setWidth 8 := by
    rw [bytesOf, extractLsb'_limitLow c (by omega), BitVec.setWidth_eq_extractLsb' (by omega)]
  rw [decode_iff hrest, byte_last hlast (by decide), hlow]
  by_cases hd : ∃ d ∈ post, d.i + 1 = c.i
  · rw [if_pos ⟨rfl, hd⟩]
    exact ⟨fun h _ => h.symm, fun h => (h hd).symm⟩
  · rw [if_neg fun h => hd h.2]
    exact ⟨fun _ h => absurd h hd, fun _ => rfl⟩

/-- Setting the entries in ascending order hides this. -/
theorem decode_ascending (h : calls.Pairwise fun c d => c.i < d.i) (hc : c ∈ calls) :
    decode (loadEntry (performAll entries m calls) (entry entries c.i)) = c.segment := by
  obtain ⟨pre, post, rfl⟩ := List.append_of_mem hc
  have hpost : ∀ d ∈ post, c.i < d.i := (List.pairwise_cons.mp (List.pairwise_append.mp h).2.1).1
  refine (decode_last_iff ⟨⟨pre, rfl⟩, fun d hd => (hpost d hd).ne'⟩).mpr ?_
  rintro ⟨d, hd, heq⟩
  have := hpost d hd
  omega

theorem decode_init (hc : c ∈ initCalls) :
    decode (loadEntry (performAll entries m initCalls) (entry entries c.i)) = c.segment :=
  decode_ascending (by decide) hc

theorem le_offset (hx : ∀ k < GDTEntry.size * GDT_MAX_ENTRIES, x ≠ entries + ((k : ℕ) : U32)) :
    40 ≤ (x - entries).toNat := by
  by_contra hlt
  refine hx (x - entries).toNat (not_le.mp hlt) ?_
  rw [BitVec.natCast_eq_ofNat, BitVec.ofNat_toNat, BitVec.setWidth_eq, add_sub_cancel]

/-- A byte that is not in the table is only changed if it is right behind it. -/
theorem byte_outside (hx : ∀ k < GDTEntry.size * GDT_MAX_ENTRIES, x ≠ entries + ((k : ℕ) : U32)) :
    (performAll entries m calls).byte x =
      if ∃ d ∈ calls, (x - entries).toNat = 8 * d.i + 8 then 0 else m.byte x := by
  have hle := le_offset hx
  refine byte_performAll rfl fun d _ hin => ?_
  have hd : d.i < 5 := d.i_lt
  omega

theorem entry_end_outside : ∀ k < GDTEntry.size * GDT_MAX_ENTRIES,
    entry entries GDT_MAX_ENTRIES ≠ entries + ((k : ℕ) : U32) := by
  intro k hk heq
  have hk' : k < 40 := hk
  have := ArrayAddress.add_cast_inj entries 40 k (by omega) (by omega) heq
  omega

/-- Behind the table, the calls for its last entry clear a byte. -/
theorem unchanged_iff (m : Ram) (entries : U32) (calls : List Call) :
    (∀ x, (∀ k < GDTEntry.size * GDT_MAX_ENTRIES, x ≠ entries + ((k : ℕ) : U32)) →
        (performAll entries m calls).byte x = m.byte x) ↔
      ((∃ c ∈ calls, c.i + 1 = GDT_MAX_ENTRIES) → m.byte (entry entries GDT_MAX_ENTRIES) = 0) := by
  have hoff : (entry entries GDT_MAX_ENTRIES - entries).toNat = 8 * GDT_MAX_ENTRIES := by
    rw [entry, add_sub_cancel_left]
    rfl
  constructor
  · rintro h ⟨c, hc, hi⟩
    rw [← h _ entry_end_outside, byte_outside entry_end_outside, if_pos ⟨c, hc, by omega⟩]
  · intro h x hx
    rw [byte_outside hx]
    split_ifs with hd
    · obtain ⟨d, hd, heq⟩ := hd
      have hi : d.i < 5 := d.i_lt
      have hle := le_offset hx
      have hlast : d.i + 1 = GDT_MAX_ENTRIES := show d.i + 1 = 5 by omega
      have hend : x = entry entries GDT_MAX_ENTRIES :=
        sub_left_inj.mp (BitVec.eq_of_toNat_eq (heq.trans (by rw [hoff, ← hlast]; rfl)))
      rw [hend]
      exact (h ⟨d, hd, hlast⟩).symm
    · rfl

end GDT

open GDT

/-- The table is as the calls ask for, whatever their order, if and only if what `memset` clears behind an entry was 0
    anyway. -/
theorem setEntry_setUp_iff (m : Ram) (entries : U32) (calls : List Call) :
    SetUp m (performAll entries m calls) entries calls ↔ Harmless m entries calls := by
  constructor
  · rintro ⟨hdecodes, hunchanged⟩
    exact ⟨fun c post hlast => (decode_last_iff hlast).mp (hdecodes c post hlast),
      (unchanged_iff m entries calls).mp hunchanged⟩
  · rintro ⟨hlimits, hbehind⟩
    exact ⟨fun c post hlast => (decode_last_iff hlast).mpr (hlimits c post hlast),
      (unchanged_iff m entries calls).mpr hbehind⟩

/-- The segments of `init`, with the null segment set last: the code segment loses the low byte of its limit. -/
theorem setEntry_loses_limit : ¬ ∀ (m : Ram) (entries : U32) (calls : List Call),
    SetUp m (performAll entries m calls) entries calls := by
  intro h
  have hlast : Last [⟨1, 0, 0xFFFFFFFF, 0x9A, 0xCF, by decide⟩, ⟨0, 0, 0, 0, 0, by decide⟩]
      ⟨1, 0, 0xFFFFFFFF, 0x9A, 0xCF, by decide⟩ [⟨0, 0, 0, 0, 0, by decide⟩] :=
    ⟨⟨[], rfl⟩, by simp⟩
  have hdecodes := (h { byte := fun _ => 0 } 0xC0200000 _).decodes _ _ hlast
  exact absurd ((decode_last_iff hlast).mp hdecodes ⟨_, List.mem_singleton_self _, rfl⟩) (by decide)

end Pros
