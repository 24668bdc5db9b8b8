import Pros.Hardware.IDT
import Pros.Hardware.Proofs.GDTProofs

/-!
# What is in the interrupt table, and where interrupts go

A call of `setEntry` changes the eight bytes of its entry and no others (`byte_perform`), so every entry is that of
the last call for it. `init` makes gates for the 48 vectors that there is code for.
-/

namespace Pros

namespace InterruptManager

variable {m : Ram} {entries x : U32} {i v : U8} {k o : ℕ} {c : Call} {calls : List Call} {isr irq : ℕ → U32}

/-! ## Bytes of an entry -/

/-- The fields that a call stores. -/
def Call.fields (c : Call) : IDTEntry where
  baseLow := (c.base &&& 0xFFFF).setWidth 16
  selector := c.selector
  zero := 0
  flags := c.flags
  baseHigh := ((c.base >>> 16) &&& 0xFFFF).setWidth 16

/-- The bytes of an entry in the order of memory. -/
def bytesOf (e : IDTEntry) : (k : ℕ) → U8
  | 0 => e.baseLow.extractLsb' 0 8
  | 1 => e.baseLow.extractLsb' 8 8
  | 2 => e.selector.extractLsb' 0 8
  | 3 => e.selector.extractLsb' 8 8
  | 4 => e.zero
  | 5 => e.flags
  | 6 => e.baseHigh.extractLsb' 0 8
  | _ => e.baseHigh.extractLsb' 8 8

/-- The place of a byte in the table. -/
theorem entry_add (entries : U32) (i : U8) (k : ℕ) :
    entry entries i + (k : U32) = entries + ((8 * i.toNat + k : ℕ) : U32) := by
  rw [entry, IDTEntry.size, add_assoc, ← Nat.cast_add]

/-- What a call does to the memory: the bytes of its entry are the fields. -/
theorem byte_perform (m : Ram) (entries : U32) (c : Call) (hk : k < 2 ^ 32) :
    (c.perform entries m).byte (entries + (k : U32)) =
      if k / 8 = c.i.toNat then bytesOf c.fields (k % 8) else m.byte (entries + (k : U32)) := by
  have hi := c.i.isLt
  unfold Call.perform setEntry
  dsimp only
  simp only [entry_add]
  rw [Memory.byte_store8_add _ _ _ (by omega) hk, GDT.byte_store16_add _ _ _ (by omega) hk,
    Memory.byte_store8_add _ _ _ (by omega) hk, GDT.byte_store16_add _ _ _ (by omega) hk,
    GDT.byte_store16_add _ _ _ (by omega) hk]
  by_cases hin : k / 8 = c.i.toNat
  · rw [if_pos hin]
    obtain ⟨j, hj, rfl⟩ : ∃ j < 8, k = 8 * c.i.toNat + j := ⟨k % 8, by omega, by omega⟩
    rw [show (8 * c.i.toNat + j) % 8 = j by omega]
    simp only [Nat.add_assoc, Nat.add_left_cancel_iff]
    have hcases : j = 0 ∨ j = 1 ∨ j = 2 ∨ j = 3 ∨ j = 4 ∨ j = 5 ∨ j = 6 ∨ j = 7 := by omega
    rcases hcases with rfl | rfl | rfl | rfl | rfl | rfl | rfl | rfl <;> rfl
  · repeat rw [if_neg (by omega)]

/-! ## Calls one after the other -/

theorem byte_performAll (m : Ram) (entries : U32) (calls : List Call) (hk : k < 2 ^ 32) :
    (performAll entries m calls).byte (entries + (k : U32)) =
      ((calls.reverse.find? fun c => k / 8 = c.i.toNat).map fun c => bytesOf c.fields (k % 8)).getD
        (m.byte (entries + (k : U32))) := by
  refine List.foldl_last (fun m => m.byte (entries + (k : U32))) (fun m c => ?_) m calls
  rw [byte_perform m entries c hk]
  simp only [decide_eq_true_eq]

/-- An entry, read byte by byte. -/
theorem loadEntry_eq {e : IDTEntry} {p : U32} (h : ∀ k < 8, m.byte (p + ((k : ℕ) : U32)) = bytesOf e k) :
    loadEntry m p = e := by
  unfold loadEntry
  simp only [Memory.load16, add_assoc, ← Nat.cast_add, Nat.zero_add, Nat.reduceAdd]
  simp (disch := omega) only [h, bytesOf, GDT.append_extractLsb']

theorem decode_fields (c : Call) : decode c.fields = c.gate := by
  have hbase : c.fields.baseHigh ++ c.fields.baseLow = c.base := by
    dsimp only [Call.fields]
    rw [BitField.setWidth_ushiftRight_and (by decide), BitField.setWidth_and_eq_extractLsb' (by omega) (by decide),
      BitVec.extractLsb'_append_extractLsb'_eq_extractLsb' (show 16 = 0 + 16 from rfl)]
    exact BitVec.extractLsb'_eq_self
  rw [decode, hbase]
  rfl

theorem loadEntry_congr {m' : Ram} {p : U32}
    (h : ∀ k < 8, m'.byte (p + ((k : ℕ) : U32)) = m.byte (p + ((k : ℕ) : U32))) :
    loadEntry m' p = loadEntry m p := by
  unfold loadEntry
  simp only [Memory.load16, add_assoc, ← Nat.cast_add, Nat.zero_add, Nat.reduceAdd]
  simp (disch := omega) only [h]

/-- The bytes of an entry are concerned by the calls for its vector. -/
theorem byte_entry_performAll (m : Ram) (entries : U32) (calls : List Call) (i : U8) (hk : k < 8) :
    (performAll entries m calls).byte (entry entries i + (k : U32)) =
      ((lastCall calls i).map fun c => bytesOf c.fields k).getD (m.byte (entry entries i + (k : U32))) := by
  have hi := i.isLt
  have hfind : (calls.reverse.find? fun c => decide ((8 * i.toNat + k) / 8 = c.i.toNat)) = lastCall calls i := by
    refine congrArg (fun p => calls.reverse.find? p) (funext fun c => decide_eq_decide.mpr ?_)
    rw [show (8 * i.toNat + k) / 8 = i.toNat by omega, eq_comm, BitVec.toNat_inj]
  rw [entry_add, byte_performAll m entries calls (by omega), hfind, show (8 * i.toNat + k) % 8 = k by omega]

/-- Every entry is that of the last call for its vector. -/
theorem decode_performAll (m : Ram) (entries : U32) (calls : List Call) (i : U8) :
    decode (loadEntry (performAll entries m calls) (entry entries i)) =
      ((lastCall calls i).map Call.gate).getD (decode (loadEntry m (entry entries i))) := by
  have hbyte : ∀ k < 8, _ := fun k hk => byte_entry_performAll m entries calls i (k := k) hk
  cases hlast : lastCall calls i with
  | none =>
    rw [loadEntry_congr fun k hk => ?_]
    · rfl
    · rw [hbyte k hk, hlast]
      rfl
  | some c =>
    rw [loadEntry_eq (e := c.fields) fun k hk => ?_]
    · exact decode_fields c
    · rw [hbyte k hk, hlast]
      rfl

/-- Outside the table nothing changes. -/
theorem byte_performAll_outside (m : Ram) (calls : List Call) (hx : 2048 ≤ (x - entries).toNat) :
    (performAll entries m calls).byte x = m.byte x := by
  rw [← BitVec.add_natCast_sub entries x, byte_performAll m entries calls (x - entries).isLt]
  have hnone : (calls.reverse.find? fun c => decide ((x - entries).toNat / 8 = c.i.toNat)) = none := by
    refine List.find?_eq_none.mpr fun c _ heq => ?_
    have hi := c.i.isLt
    have := of_decide_eq_true heq
    omega
  rw [hnone]
  rfl

/-! ## The table after `init` -/

theorem lastCall_of_mem {calls : List Call} {c : Call} (hnodup : (calls.map Call.i).Nodup) (hc : c ∈ calls) :
    lastCall calls c.i = some c := by
  cases hlast : lastCall calls c.i with
  | none =>
    exact absurd (decide_eq_true rfl) (List.find?_eq_none.mp hlast c (List.mem_reverse.mpr hc))
  | some d =>
    unfold lastCall at hlast
    have hd : d ∈ calls := List.mem_reverse.mp (List.mem_of_find?_eq_some hlast)
    have heq : d.i = c.i := by simpa using List.find?_some hlast
    rw [List.inj_on_of_nodup_map hnodup hd hc heq]

theorem nodup_initCalls (isr irq : ℕ → U32) : ((initCalls isr irq).map Call.i).Nodup := by
  have hmap : (initCalls isr irq).map Call.i = (List.range 48).map (BitVec.ofNat 8) := rfl
  rw [hmap]
  decide

theorem mem_initCalls (isr irq : ℕ → U32) (hv : v.toNat < 48) :
    ⟨v, handlerAddress isr irq v.toNat, 0x08, 0x8E⟩ ∈ initCalls isr irq := by
  rw [initCalls, List.mem_append, List.mem_map, List.mem_map, handlerAddress]
  split_ifs with h32
  · exact Or.inl ⟨v.toNat, List.mem_range.mpr h32, by rw [BitVec.ofNat_toNat, BitVec.setWidth_eq]⟩
  · refine Or.inr ⟨v.toNat - 32, List.mem_range.mpr (by omega), ?_⟩
    have hi : (0x20 : U8) + BitVec.ofNat 8 (v.toNat - 32) = v := by
      apply BitVec.eq_of_toNat_eq
      rw [BitVec.toNat_add, BitVec.toNat_ofNat, show (0x20 : U8).toNat = 32 from rfl]
      omega
    rw [hi]

theorem lastCall_initCalls (isr irq : ℕ → U32) (v : U8) : lastCall (initCalls isr irq) v =
    if v.toNat < 48 then some ⟨v, handlerAddress isr irq v.toNat, 0x08, 0x8E⟩ else none := by
  split_ifs with hv
  · exact lastCall_of_mem (nodup_initCalls isr irq) (mem_initCalls isr irq hv)
  · refine List.find?_eq_none.mpr fun c hc heq => hv ?_
    have hi : c.i ∈ (initCalls isr irq).map Call.i := List.mem_map_of_mem (List.mem_reverse.mp hc)
    have hmap : (initCalls isr irq).map Call.i = (List.range 48).map (BitVec.ofNat 8) := rfl
    obtain ⟨n, hn, hni⟩ := List.mem_map.mp (hmap ▸ hi)
    have hn48 := List.mem_range.mp hn
    rw [← of_decide_eq_true heq, ← hni, BitVec.toNat_ofNat]
    omega

/-- An entry that `init` makes no gate for is clear. -/
theorem byte_init_clear (m : Ram) (entries : U32) (isr irq : ℕ → U32) (hv : 48 ≤ v.toNat) (hk : k < 8) :
    (init m entries isr irq).byte (entry entries v + (k : U32)) = 0 := by
  have hlt := v.isLt
  rw [init, byte_entry_performAll _ _ _ _ hk, lastCall_initCalls, if_neg (by omega), Option.map_none, Option.getD_none]
  rw [entry_add, byte_memset_add m entries 0 (by omega) (by dsimp only [IDTEntry.size]; omega)]

/-- The gates of `init`, for the vectors that there is code for; the others are clear. -/
theorem decode_init (m : Ram) (entries : U32) (isr irq : ℕ → U32) (v : U8) :
    decode (loadEntry (init m entries isr irq) (entry entries v)) =
      if v.toNat < 48 then ⟨handlerAddress isr irq v.toNat, 0x08, 0x8E⟩ else ⟨0, 0, 0⟩ := by
  split_ifs with hv
  · rw [init, decode_performAll, lastCall_initCalls, if_pos hv]
    rfl
  · have hzero : loadEntry (init m entries isr irq) (entry entries v) = ⟨0, 0, 0, 0, 0⟩ := by
      refine loadEntry_eq fun k hk => ?_
      rw [byte_init_clear m entries isr irq (by omega) hk]
      have hcases : k = 0 ∨ k = 1 ∨ k = 2 ∨ k = 3 ∨ k = 4 ∨ k = 5 ∨ k = 6 ∨ k = 7 := by omega
      rcases hcases with rfl | rfl | rfl | rfl | rfl | rfl | rfl | rfl <;> rfl
    rw [hzero]
    rfl

/-- `init` changes the table and clears the byte behind it. -/
theorem byte_init (m : Ram) (entries : U32) (isr irq : ℕ → U32) (hx : 2048 ≤ (x - entries).toNat) :
    (init m entries isr irq).byte x = if (x - entries).toNat = 2048 then 0 else m.byte x := by
  have hlt := (x - entries).isLt
  rw [init, byte_performAll_outside _ _ hx]
  split_ifs with h
  · rw [← BitVec.add_natCast_sub entries x, h, byte_memset_add m entries 0 (by omega) (by decide)]
  · refine byte_memset_of_ne fun i h1 h2 heq => h ?_
    have h2' : i ≤ 2048 := h2
    rw [heq, add_sub_cancel_left, BitVec.natCast_eq_ofNat, BitVec.toNat_ofNat, Nat.mod_eq_of_lt (by omega)] at hx ⊢
    omega

end InterruptManager

open InterruptManager in
/-- Whatever calls of `setEntry` are made, in any order, every gate is the one that was asked for last, and no other
    byte is changed. After `init` the vectors that there is code for have their gates and all others are clear. -/
theorem idt_setUp (m : Ram) (entries : U32) (calls : List Call) (isr irq : ℕ → U32) :
    (∀ i, decode (loadEntry (performAll entries m calls) (entry entries i)) =
      ((lastCall calls i).map Call.gate).getD (decode (loadEntry m (entry entries i)))) ∧
    (∀ i, lastCall calls i = none → ∀ k : ℕ, k < IDTEntry.size →
      (performAll entries m calls).byte (entry entries i + (k : U32)) = m.byte (entry entries i + (k : U32))) ∧
    (∀ x, IDTEntry.size * 256 ≤ (x - entries).toNat → (performAll entries m calls).byte x = m.byte x) ∧
    (∀ v, v.toNat < 48 → decode (loadEntry (init m entries isr irq) (entry entries v)) =
      ⟨handlerAddress isr irq v.toNat, 0x08, 0x8E⟩) ∧
    ∀ v, 48 ≤ v.toNat → ∀ k : ℕ, k < IDTEntry.size →
      (init m entries isr irq).byte (entry entries v + (k : U32)) = 0 := by
  refine ⟨decode_performAll m entries calls, fun i hlast k hk => ?_, fun x hx => byte_performAll_outside m calls hx,
    fun v hv => ?_, fun v hv k hk => byte_init_clear m entries isr irq hv hk⟩
  · rw [byte_entry_performAll m entries calls i hk, hlast]
    rfl
  · rw [decode_init, if_pos hv]

/-! ## Where interrupts go -/

theorem GDT.loadEntry_congr {m m' : Ram} {p : U32}
    (h : ∀ k < 8, m'.byte (p + ((k : ℕ) : U32)) = m.byte (p + ((k : ℕ) : U32))) :
    GDT.loadEntry m' p = GDT.loadEntry m p := by
  unfold GDT.loadEntry
  simp only [Memory.load16, add_assoc, ← Nat.cast_add, Nat.zero_add, Nat.reduceAdd]
  simp (disch := omega) only [h]

theorem isInterrupt_gate (offset : U32) : (⟨offset, 0x08, 0x8E⟩ : InterruptManager.Gate).IsInterrupt :=
  ⟨show (0x8E : U8).getLsbD 7 = true by decide, show (0x8E : U8).extractLsb' 0 5 = 0x0E by decide⟩

/-- The code segment of the kernel begins at 0 and has every offset. -/
theorem hasCode_segment (offset : U32) :
    ((⟨0, 0xFFFFF, 0x9A, 0xC⟩ : GDT.Segment)).HasCode offset := by
  refine ⟨by decide, by decide, ?_⟩
  rw [BitVec.le_def, BitVec.toNat_ushiftRight, Nat.shiftRight_eq_div_pow]
  have := offset.isLt
  have hlimit : ((0xFFFFF : BitVec 20).setWidth 32).toNat = 1048575 := rfl
  rw [hlimit]
  omega

theorem TablesApart.decode_init {idt gdt : U32} (h : TablesApart idt gdt) (m : Ram) (isr irq : ℕ → U32) :
    GDT.decode (GDT.loadEntry (InterruptManager.init (GDT.performAll gdt m GDT.initCalls) idt isr irq)
      (GDT.entry gdt 1)) = ⟨0, 0xFFFFF, 0x9A, 0xC⟩ := by
  rw [GDT.loadEntry_congr (m := GDT.performAll gdt m GDT.initCalls) fun k hk => ?_]
  · exact GDT.decode_init (c := ⟨1, 0, 0xFFFFFFFF, 0x9A, 0xCF, by decide⟩) (List.mem_cons_of_mem _ List.mem_cons_self)
  · have hbehind : ¬ (GDT.entry gdt 1 + ((k : ℕ) : U32) - idt).toNat ≤ 2048 := by
      intro hle
      refine h _ (8 + k) hle (by dsimp only [GDTEntry.size, GDT_MAX_ENTRIES]; omega) ?_
      rw [BitVec.add_natCast_sub, GDT.entry, add_assoc, ← Nat.cast_add]
      rfl
    rw [InterruptManager.byte_init _ _ _ _ (by omega), if_neg (by omega)]

/-- After the set-up of both tables, an interrupt goes to the code for its vector, through the kernel's code segment,
    if it has one of the 48 vectors that there is code for; with any other it is not delivered. -/
theorem vectors_delivered {idt gdt : U32} (h : TablesApart idt gdt) (m : Ram) (isr irq : ℕ → U32) (v : U8) :
    vectorTarget (InterruptManager.init (GDT.performAll gdt m GDT.initCalls) idt isr irq) idt gdt v =
      if v.toNat < 48 then some (0x08, handlerAddress isr irq v.toNat) else none := by
  unfold vectorTarget
  rw [InterruptManager.decode_init]
  split_ifs with hv
  · have hselector : (0x08 : U16).toNat / 8 = 1 := rfl
    simp only [hselector, h.decode_init]
    rw [if_pos ⟨isInterrupt_gate _, rfl, by decide, hasCode_segment _⟩, zero_add]
  · simp only
    rw [if_neg fun hgate => absurd hgate.1 (by decide)]

/-- The keyboard's vector, with the tables and the code at some addresses. -/
theorem vectors_delivered_keyboard :
    vectorTarget (InterruptManager.init (GDT.performAll 0xC0110000 { byte := fun _ => 0 } GDT.initCalls) 0xC0112000
      (fun n => 0xC0100000 + (n : U32)) (fun n => 0xC0101000 + (n : U32))) 0xC0112000 0xC0110000 0x21 =
      some (0x08, 0xC0101001) := by
  have hapart : TablesApart 0xC0112000 0xC0110000 := by
    intro i j hi hj heq
    have hi' : i ≤ 2048 := hi
    have hj' : j < GDTEntry.size * GDT_MAX_ENTRIES := hj
    dsimp only [GDTEntry.size, GDT_MAX_ENTRIES] at hj'
    have hnat : (0xC0112000 + i) % 2 ^ 32 = (0xC0110000 + j) % 2 ^ 32 := by
      have heq' := congrArg BitVec.toNat heq
      simpa only [BitVec.toNat_add, BitVec.natCast_eq_ofNat, BitVec.toNat_ofNat, BitVec.reduceToNat,
        Nat.add_mod_mod] using heq'
    omega
  exact vectors_delivered hapart _ _ _ 0x21

end Pros
