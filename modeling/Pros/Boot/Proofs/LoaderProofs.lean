import Pros.Boot.Loader

/-!
# Proofs: the loader

`Loading im s k t` says what holds when `k` instructions have been executed. What the cache does between
instructions keeps it (`Loading.lookup`, `Loading.drop`), and each instruction leads from `k` to `k + 1`.
-/

namespace Pros

open Ia32
open X86 (HasWords)

namespace Image

variable {im : Image}

theorem address_zero : im.address 0 = im.loader := by simp [address]

theorem address_succ {k : ℕ} {bytes : List U8} (h : im.text[k]? = some bytes) :
    im.address (k + 1) = im.address k + ((bytes.length : ℕ) : U32) := by
  rw [address, address, List.take_add_one, h, Option.toList_some, List.flatten_append, List.flatten_singleton,
    List.length_append, Nat.cast_add, add_assoc]

/-- The bytes of an instruction within the bytes of all. -/
theorem text_eq {k : ℕ} {bytes : List U8} (h : im.text[k]? = some bytes) :
    ∃ rest, im.text.flatten = (im.text.take k).flatten ++ bytes ++ rest := by
  obtain ⟨hk, rfl⟩ := List.getElem?_eq_some_iff.mp h
  refine ⟨(im.text.drop (k + 1)).flatten, ?_⟩
  rw [← List.flatten_singleton (l := im.text[k]), ← List.flatten_append, List.take_append_getElem, ← List.flatten_append,
    List.take_append_drop]

theorem Linked.toNat_address (h : im.Linked) (k : ℕ) :
    (im.address k).toNat = im.loader.toNat + (im.text.take k).flatten.length := by
  have hle : (im.text.take k).flatten.length ≤ im.text.flatten.length := by
    have hsplit := congrArg (fun t : List (List U8) => t.flatten.length) (List.take_append_drop k im.text)
    simp only [List.flatten_append, List.length_append] at hsplit
    omega
  have hend := h.text_end
  exact BitVec.toNat_add_cast (by omega)

end Image

/-! ## Translations -/

/-- The translations of the boot directory, with or without the first 4 MiB at their own place. -/
def bootMapping (low : Bool) (a : U32) : Option Mapping :=
  if low = true ∧ a.toNat < 0x400000 then some ⟨a, true, 22⟩ else kernelWindow a

theorem bootMapping_false (a : U32) : bootMapping false a = kernelWindow a := if_neg (by simp)

theorem bootMapping_low {a : U32} (ha : a.toNat < 0x400000) : bootMapping true a = some ⟨a, true, 22⟩ := if_pos ⟨rfl, ha⟩

theorem bootMapping_high {a : U32} (low : Bool) (ha : 0xC0000000 ≤ a.toNat) (ha' : a.toNat < 0xC0400000) :
    bootMapping low a = some ⟨a - KERNEL_VIRTUAL_BASE, true, 22⟩ := by
  rw [bootMapping, if_neg (by omega), kernelWindow, if_pos ⟨ha, ha'⟩]

theorem bootMapping_true {a : U32} {μ : Mapping} (h : bootMapping false a = some μ) : bootMapping true a = some μ := by
  rw [bootMapping_false] at h
  rw [bootMapping, if_neg, h]
  rintro ⟨-, ha⟩
  rw [kernelWindow, if_neg (by omega)] at h
  cases h

theorem bits_of_bootMapping {low : Bool} {a : U32} {μ : Mapping} (h : bootMapping low a = some μ) : μ.bits = 22 := by
  rw [bootMapping] at h
  split_ifs at h with hlow
  · rw [← Option.some.inj h]
  · rw [kernelWindow] at h
    split_ifs at h
    rw [← Option.some.inj h]

/-- The directory's entries. -/
def bootEntry (low : Bool) (n : ℕ) : U32 := if n = 768 ∨ low = true ∧ n = 0 then 0x83 else 0

theorem bootPageDirectory_length : bootPageDirectory.length = 1024 := by
  rw [bootPageDirectory, List.length_append, List.length_append, List.length_append, List.length_replicate,
    List.length_replicate]
  rfl

theorem bootPageDirectory_getElem? {n : ℕ} (h : n < 1024) : bootPageDirectory[n]? = some (bootEntry true n) := by
  have hpage : KERNEL_PAGE_NUMBER = 768 := rfl
  rw [bootPageDirectory, hpage, bootEntry]
  by_cases h0 : n = 0
  · subst h0
    rfl
  · rw [List.append_assoc, List.append_assoc, List.singleton_append, List.getElem?_cons, if_neg h0,
      List.getElem?_append, List.length_replicate]
    by_cases h1 : n - 1 < 768 - 1
    · rw [if_pos h1, if_neg (by omega), List.getElem?_replicate_of_lt h1]
    · rw [if_neg h1, List.singleton_append, List.getElem?_cons]
      by_cases h2 : n = 768
      · rw [if_pos (by omega), if_pos (Or.inl h2)]
      · rw [if_neg (by omega), if_neg (by omega), List.getElem?_replicate_of_lt (by omega)]

/-- An entry of the boot directory maps 4 MiB to the first 4 MiB of memory. -/
theorem walk_of_entry {s : Machine} {a : U32} (hpae : s.pae = false) (hbig : s.bigPages = true)
    (hentry : s.directoryEntry a = 0x83) : s.walk a = some ⟨BitVec.ofNat 32 (a.toNat % 2 ^ 22), true, 22⟩ := by
  have hoff : ((0x83 : U32) &&& 0xFFC00000) + (a &&& 0x3FFFFF) = BitVec.ofNat 32 (a.toNat % 2 ^ 22) := by
    apply BitVec.eq_of_toNat_eq
    rw [show ((0x83 : U32) &&& 0xFFC00000) = 0 from rfl, zero_add, BitVec.toNat_and,
      show (0x3FFFFF : U32).toNat = 2 ^ 22 - 1 from rfl, Nat.and_two_pow_sub_one_eq_mod, BitVec.toNat_ofNat]
    omega
  rw [Machine.walk, hentry, hpae, hbig, ← hoff]
  rfl

theorem walk_of_directory {s : Machine} {base : U32} {low : Bool} (hpae : s.pae = false) (hbig : s.bigPages = true)
    (hbase : s.cr .cr3 &&& 0xFFFFF000 = base)
    (hdir : ∀ n : ℕ, n < 1024 → s.mem.load32 (base + 4 * (n : U32)) = bootEntry low n) (a : U32) :
    s.walk a = bootMapping low a := by
  have hn : a >>> 22 = ((a.toNat / 2 ^ 22 : ℕ) : U32) := by
    rw [← Nat.shiftRight_eq_div_pow, ← BitVec.toNat_ushiftRight, BitVec.natCast_eq_ofNat, BitVec.ofNat_toNat,
      BitVec.setWidth_eq]
  have hentry : s.directoryEntry a = bootEntry low (a.toNat / 2 ^ 22) := by
    rw [Machine.directoryEntry, hbase, hn]
    exact hdir _ (by omega)
  by_cases h : a.toNat / 2 ^ 22 = 768 ∨ low = true ∧ a.toNat / 2 ^ 22 = 0
  · rw [bootEntry, if_pos h] at hentry
    rw [walk_of_entry hpae hbig hentry]
    rcases h with h | ⟨rfl, h⟩
    · rw [bootMapping_high low (by omega) (by omega)]
      congr 2
      simp only [KERNEL_VIRTUAL_BASE]
      bv_omega
    · rw [bootMapping_low (by omega)]
      congr 2
      bv_omega
  · rw [bootEntry, if_neg h] at hentry
    rw [not_or, not_and] at h
    rw [bootMapping, if_neg fun hlow => h.2 hlow.1 (by omega), kernelWindow, if_neg (by omega), Machine.walk, hentry, hpae]
    rfl

/-! ## The invariant -/

/-- What `ecx` holds after `k` instructions, where the next one reads it. -/
def ecxAfter (im : Image) (s : Machine) : ℕ → U32
  | 1 => im.directory - KERNEL_VIRTUAL_BASE
  | 3 => s.cr .cr4
  | 4 => s.cr .cr4 ||| 0x10
  | 6 => s.cr .cr0
  | 7 => s.cr .cr0 ||| 0x80000001
  | 9 => im.startInHigherHalf
  | _ => s.reg .ecx

/-- After `k` instructions of the loader, from the state `s₀` on. -/
structure Loading (im : Image) (s₀ : Machine) (k : ℕ) (s : Machine) : Prop where
  eip : s.eip = if k < 10 then im.address k - KERNEL_VIRTUAL_BASE else if k < 16 then im.address k else im.kmain
  eax : s.reg .eax = s₀.reg .eax
  ebx : s.reg .ebx = s₀.reg .ebx
  ecx : s.reg .ecx = ecxAfter im s k
  interrupts : s.eflags.getLsbD 9 = false
  paging : s.paging = decide (8 ≤ k)
  pae : s.pae = false
  globalPages : s.globalPages = false
  cr3 : 2 ≤ k → s.cr .cr3 = im.directory - KERNEL_VIRTUAL_BASE
  bigPages : 5 ≤ k → s.bigPages = true
  esp : 13 ≤ k → s.reg .esp = im.stack_top - ((4 * (k - 13) : ℕ) : U32)
  words : 13 ≤ k →
    HasWords s.mem (s.reg .esp - KERNEL_VIRTUAL_BASE) ([im.address 16, s₀.reg .ebx, s₀.reg .eax].drop (16 - k))
  /-- The directory maps the first 4 MiB until the eleventh instruction has unmapped them. -/
  entries : ∀ n : ℕ, n < 1024 →
    s.mem.load32 (im.directory - KERNEL_VIRTUAL_BASE + 4 * (n : U32)) = bootEntry (decide (k < 11)) n
  mem : ∀ x : U32, ¬ Image.In (x + KERNEL_VIRTUAL_BASE) im.directory 0x1000 →
    ¬ Image.In (x + KERNEL_VIRTUAL_BASE) (im.stack_top - 12) 12 → s.mem.byte x = s₀.mem.byte x
  /-- Old translations may be in use until the next instruction has dropped them. -/
  cache : 2 ≤ k → ∀ a μ, s.tlb a = some μ → bootMapping (decide (k < 12)) a = some μ

theorem toNat_sub_base {a : U32} (ha : 0xC0000000 ≤ a.toNat) :
    (a - KERNEL_VIRTUAL_BASE).toNat = a.toNat - 0xC0000000 := by
  simp only [KERNEL_VIRTUAL_BASE]
  bv_omega

theorem sub_base_add (a : U32) (j : ℕ) :
    a - KERNEL_VIRTUAL_BASE + (j : U32) = a + (j : U32) - KERNEL_VIRTUAL_BASE := (add_sub_right_comm ..).symm

theorem toNat_add_base {x : U32} (h : x.toNat < 0x40000000) : (x + KERNEL_VIRTUAL_BASE).toNat = x.toNat + 0xC0000000 := by
  simp only [KERNEL_VIRTUAL_BASE]
  bv_omega

/-- The bytes of the directory's entries. -/
theorem Image.Linked.toNat_entry {im : Image} (him : im.Linked) {n i : ℕ} (hn : n < 1024) (hi : i < 4) :
    (im.directory - KERNEL_VIRTUAL_BASE + 4 * (n : U32) + (i : U32)).toNat =
      im.directory.toNat - 0xC0000000 + 4 * n + i := by
  have hstart := him.directory_start
  have hend := him.directory_end
  have hcast : (4 : U32) * (n : U32) = ((4 * n : ℕ) : U32) := (Nat.cast_mul 4 n).symm
  rw [hcast, add_assoc, ← Nat.cast_add, BitVec.toNat_add_cast (by rw [toNat_sub_base (by omega)]; omega),
    toNat_sub_base (by omega)]
  omega

/-- Entries do not change with bytes outside the directory. -/
theorem Image.Linked.load32_entry {im : Image} (him : im.Linked) {m m' : Memory U32}
    (hm : ∀ x : U32, Image.In (x + KERNEL_VIRTUAL_BASE) im.directory 0x1000 → m'.byte x = m.byte x) {n : ℕ}
    (hn : n < 1024) : m'.load32 (im.directory - KERNEL_VIRTUAL_BASE + 4 * (n : U32)) =
      m.load32 (im.directory - KERNEL_VIRTUAL_BASE + 4 * (n : U32)) := by
  have hstart := him.directory_start
  have hend := him.directory_end
  refine Memory.load32_congr fun i hi => hm _ ?_
  have hplace := him.toNat_entry hn hi
  rw [Image.In, toNat_add_base (by omega), hplace]
  omega

theorem Loading.zero {im : Image} {s : Machine} (hs : HandOver im s) : Loading im s 0 s where
  eip := by rw [if_pos (by omega), Image.address_zero, hs.eip]
  eax := rfl
  ebx := rfl
  ecx := rfl
  interrupts := hs.interrupts
  paging := hs.paging
  pae := hs.pae
  globalPages := hs.globalPages
  cr3 h := absurd h (by omega)
  bigPages h := absurd h (by omega)
  esp h := absurd h (by omega)
  words h := absurd h (by omega)
  mem _ _ _ := rfl
  cache h := absurd h (by omega)
  entries n hn := by
    have hlt : n < bootPageDirectory.length := by rwa [bootPageDirectory_length]
    have hget := bootPageDirectory_getElem? hn
    rw [List.getElem?_eq_getElem hlt] at hget
    exact (hs.loaded.directory n hlt).trans (Option.some.inj hget)

section Fetch

variable {im : Image} {s₀ s : Machine} {k : ℕ}

theorem Loading.walk_eq (h : Loading im s₀ k s) (him : im.Linked) (hk : 8 ≤ k) (a : U32) :
    s.walk a = bootMapping (decide (k < 11)) a := by
  have hbase : s.cr .cr3 &&& 0xFFFFF000 = im.directory - KERNEL_VIRTUAL_BASE := by
    have haligned := him.directory_aligned
    apply BitVec.eq_of_toNat_eq
    rw [h.cr3 (by omega), toNat_and_page, toNat_sub_base (le_trans (by omega) him.directory_start)]
    omega
  exact walk_of_directory h.pae (h.bigPages (by omega)) hbase h.entries a

/-- The processor's translation is the directory's, or an older one of the directory. -/
theorem Loading.translate (h : Loading im s₀ k s) (him : im.Linked) (hk : 8 ≤ k) {a : U32} {μ : Mapping}
    (hμ : bootMapping (decide (k < 11)) a = some μ) : s.translate a = some μ := by
  rw [Machine.translate, h.paging, if_pos (decide_eq_true hk), h.walk_eq him hk, hμ]
  cases hν : s.tlb a with
  | none => rfl
  | some ν =>
    have hcached := h.cache (by omega) a ν hν
    rw [Option.some_or, ← hcached]
    by_cases hlow : k < 11
    · rwa [decide_eq_true (show k < 12 by omega), ← decide_eq_true hlow]
    · rw [decide_eq_false hlow] at hμ
      by_cases hold : k < 12
      · rw [decide_eq_true hold, bootMapping_true hμ]
      · rw [decide_eq_false hold, hμ]

/-- The kernel's addresses are translated from the eighth instruction on. -/
theorem Loading.reaches (h : Loading im s₀ k s) (him : im.Linked) (hk : 8 ≤ k) {a : U32} (ha : 0xC0000000 ≤ a.toNat)
    (ha' : a.toNat < 0xC0400000) : s.Reaches a (a - KERNEL_VIRTUAL_BASE) :=
  ⟨_, h.translate him hk (bootMapping_high _ ha ha'), rfl, rfl⟩

/-- Until the jump, the code is executed at its place in memory. -/
theorem Loading.reaches_self (h : Loading im s₀ k s) (him : im.Linked) (hk : k < 10) {a : U32}
    (ha : a.toNat < 0x400000) : s.Reaches a a := by
  by_cases hp : 8 ≤ k
  · refine ⟨⟨a, true, 22⟩, h.translate him hp ?_, rfl, rfl⟩
    rw [decide_eq_true (show k < 11 by omega), bootMapping_low ha]
  · refine ⟨⟨a, true, 32⟩, ?_, rfl, rfl⟩
    rw [Machine.translate, h.paging, if_neg (by simpa using hp)]

/-- The code stays in memory. -/
theorem Loading.code_byte (h : Loading im s₀ k s) (him : im.Linked) (hs : HandOver im s₀) {l : ℕ} {bytes : List U8}
    (hbytes : im.text[l]? = some bytes) {j : ℕ} (hj : j < bytes.length) :
    s.mem.byte (im.address l + (j : U32) - KERNEL_VIRTUAL_BASE) = bytes.get ⟨j, hj⟩ ∧
      (im.address l + (j : U32)).toNat = (im.address l).toNat + j ∧
      Image.In (im.address l + (j : U32)) im.loader im.text.flatten.length := by
  obtain ⟨rest, hrest⟩ := Image.text_eq hbytes
  have hlen := congrArg List.length hrest
  rw [List.length_append, List.length_append] at hlen
  have hlt : (im.text.take l).flatten.length + j < im.text.flatten.length := by omega
  have haddr := him.toNat_address l
  have hstart := him.text_start
  have hend := him.text_end
  have hnat : (im.address l + (j : U32)).toNat = (im.address l).toNat + j := BitVec.toNat_add_cast (by omega)
  have hin : Image.In (im.address l + (j : U32)) im.loader im.text.flatten.length := ⟨by omega, by omega⟩
  have hstack : ¬ Image.In (im.address l + (j : U32)) (im.stack_top - 12) 12 := by
    have hnot := him.text_stack _ hin
    have htop := him.stack_start
    simp only [Image.In] at hnot ⊢
    bv_omega
  refine ⟨?_, hnat, hin⟩
  rw [h.mem _ (by rw [sub_add_cancel]; exact him.text_directory _ hin) (by rw [sub_add_cancel]; exact hstack)]
  have hplace : im.address l + (j : U32) - KERNEL_VIRTUAL_BASE =
      im.loader - KERNEL_VIRTUAL_BASE + (((im.text.take l).flatten.length + j : ℕ) : U32) := by
    rw [sub_base_add, Image.address, Nat.cast_add, add_assoc]
  rw [hplace, hs.loaded.text _ hlt]
  simp only [List.get_eq_getElem]
  rw [List.getElem_of_eq hrest, List.getElem_append_left (by rw [List.length_append]; omega),
    List.getElem_append_right (by omega)]
  simp

/-- The next step executes the instruction with the number `k`. -/
theorem Loading.step_eq (h : Loading im s₀ k s) (him : im.Linked) (hs : HandOver im s₀) (hk : k < 16) {i : Ia32.Instr}
    (hi : im.code[k]? = some i) (hrel : k < 10 → i.relative = false) :
    s.step = i.exec { s with eip := if k < 10 then im.address (k + 1) - KERNEL_VIRTUAL_BASE else im.address (k + 1) } := by
  have hlt : k < im.text.length := by
    rw [him.length]
    exact (List.getElem?_eq_some_iff.mp hi).1
  have hbytes : im.text[k]? = some im.text[k] := List.getElem?_eq_getElem hlt
  generalize im.text[k] = bytes at hbytes
  have hencodes := him.encodes k i bytes hi hbytes
  have hstart := him.text_start
  have hend := him.text_end
  rw [Image.address_succ hbytes]
  by_cases hlow : k < 10
  · have heip := h.eip
    rw [if_pos hlow] at heip ⊢
    rw [Machine.step_of_encodes (hencodes.move (hrel hlow)), heip, sub_base_add]
    intro j hj
    obtain ⟨hbyte, hnat, hin, hin'⟩ := h.code_byte him hs hbytes hj
    rw [heip, sub_base_add, (h.reaches_self him hlow ?_).load8, hbyte]
    rw [toNat_sub_base (by omega)]
    omega
  · have heip := h.eip
    rw [if_neg hlow, if_pos hk] at heip
    rw [if_neg hlow]
    rw [← heip] at hencodes
    rw [Machine.step_of_encodes hencodes, heip]
    intro j hj
    obtain ⟨hbyte, hnat, hin, hin'⟩ := h.code_byte him hs hbytes hj
    rw [heip, (h.reaches him (by omega) (by omega) (by omega)).load8, hbyte]

end Fetch

/-! ## The instructions -/

section Steps

variable {im : Image} {s₀ s t : Machine} {k : ℕ}

/-- An instruction before the jump, which does not store. -/
theorem Loading.next_low (h : Loading im s₀ k s) (hk : k < 10)
    (heip : t.eip = if k + 1 < 10 then im.address (k + 1) - KERNEL_VIRTUAL_BASE else im.address (k + 1))
    (hreg : ∀ r, r ≠ .ecx → t.reg r = s.reg r) (hecx : t.reg .ecx = ecxAfter im t (k + 1))
    (hflags : t.eflags.getLsbD 9 = s.eflags.getLsbD 9) (hmem : t.mem = s.mem)
    (hpaging : t.paging = decide (8 ≤ k + 1)) (hpae : t.pae = s.pae) (hglobal : t.globalPages = s.globalPages)
    (hcr3 : 2 ≤ k + 1 → t.cr .cr3 = im.directory - KERNEL_VIRTUAL_BASE) (hbig : 5 ≤ k + 1 → t.bigPages = true)
    (hcache : 2 ≤ k + 1 → ∀ a μ, t.tlb a = some μ → bootMapping true a = some μ) : Loading im s₀ (k + 1) t where
  eip := by rw [heip, if_pos (show k + 1 < 16 by omega)]
  eax := (hreg .eax (by decide)).trans h.eax
  ebx := (hreg .ebx (by decide)).trans h.ebx
  ecx := hecx
  interrupts := hflags.trans h.interrupts
  paging := hpaging
  pae := hpae.trans h.pae
  globalPages := hglobal.trans h.globalPages
  cr3 := hcr3
  bigPages := hbig
  esp hk' := absurd hk' (by omega)
  words hk' := absurd hk' (by omega)
  entries n hn := by
    rw [hmem, h.entries n hn, decide_eq_true (show k < 11 by omega), decide_eq_true (show k + 1 < 11 by omega)]
  mem x hx hx' := by rw [hmem, h.mem x hx hx']
  cache hk' := by
    rw [decide_eq_true (show k + 1 < 12 by omega)]
    exact hcache hk'

/-- An instruction before the jump that leaves the control registers alone. -/
theorem Loading.next_ecx (h : Loading im s₀ k s) (hk : k < 10) (hk1 : k ≠ 1) (hk4 : k ≠ 4) (hk7 : k ≠ 7)
    (heip : t.eip = if k + 1 < 10 then im.address (k + 1) - KERNEL_VIRTUAL_BASE else im.address (k + 1))
    (hreg : ∀ r, r ≠ .ecx → t.reg r = s.reg r) (hecx : t.reg .ecx = ecxAfter im t (k + 1))
    (hflags : t.eflags.getLsbD 9 = s.eflags.getLsbD 9) (hmem : t.mem = s.mem) (hcr : t.cr = s.cr)
    (htlb : t.tlb = s.tlb) : Loading im s₀ (k + 1) t := by
  refine h.next_low hk heip hreg hecx hflags hmem ?_ ?_ ?_ ?_ ?_ ?_
  · rw [Machine.paging, hcr]
    refine h.paging.trans (decide_eq_decide.mpr ?_)
    omega
  · rw [Machine.pae, hcr, Machine.pae]
  · rw [Machine.globalPages, hcr, Machine.globalPages]
  · rw [hcr]
    exact fun _ => h.cr3 (by omega)
  · rw [Machine.bigPages, hcr]
    exact fun _ => h.bigPages (by omega)
  · rw [htlb]
    have hcache := h.cache
    rw [decide_eq_true (show k < 12 by omega)] at hcache
    exact fun _ => hcache (by omega)

/-- An instruction after the jump. -/
theorem Loading.next_high (h : Loading im s₀ k s) (hk : 10 ≤ k)
    (heip : t.eip = if k + 1 < 16 then im.address (k + 1) else im.kmain)
    (hreg : ∀ r, r ≠ .esp → t.reg r = s.reg r) (hflags : t.eflags = s.eflags) (hcr : t.cr = s.cr)
    (hesp : 13 ≤ k + 1 → t.reg .esp = im.stack_top - ((4 * (k + 1 - 13) : ℕ) : U32))
    (hwords : 13 ≤ k + 1 → HasWords t.mem (t.reg .esp - KERNEL_VIRTUAL_BASE)
      ([im.address 16, s₀.reg .ebx, s₀.reg .eax].drop (16 - (k + 1))))
    (hentries : ∀ n : ℕ, n < 1024 →
      t.mem.load32 (im.directory - KERNEL_VIRTUAL_BASE + 4 * (n : U32)) = bootEntry false n)
    (hmem : ∀ x : U32, ¬ Image.In (x + KERNEL_VIRTUAL_BASE) im.directory 0x1000 →
      ¬ Image.In (x + KERNEL_VIRTUAL_BASE) (im.stack_top - 12) 12 → t.mem.byte x = s.mem.byte x)
    (hcache : ∀ a μ, t.tlb a = some μ → bootMapping (decide (k + 1 < 12)) a = some μ) :
    Loading im s₀ (k + 1) t where
  eip := by rw [heip, if_neg (show ¬ k + 1 < 10 by omega)]
  eax := (hreg .eax (by decide)).trans h.eax
  ebx := (hreg .ebx (by decide)).trans h.ebx
  ecx := by
    have hafter : ecxAfter im t (k + 1) = t.reg .ecx := by
      unfold ecxAfter
      split <;> first | omega | rfl
    rw [hafter]
  interrupts := by rw [hflags, h.interrupts]
  paging := by
    rw [Machine.paging, hcr]
    refine h.paging.trans (decide_eq_decide.mpr ?_)
    omega
  pae := by
    rw [Machine.pae, hcr]
    exact h.pae
  globalPages := by
    rw [Machine.globalPages, hcr]
    exact h.globalPages
  cr3 _ := by rw [hcr, h.cr3 (by omega)]
  bigPages _ := by
    rw [Machine.bigPages, hcr]
    exact h.bigPages (by omega)
  esp := hesp
  words := hwords
  entries := by
    rw [decide_eq_false (show ¬ k + 1 < 11 by omega)]
    exact hentries
  mem x hx hx' := (hmem x hx hx').trans (h.mem x hx hx')
  cache _ := hcache

/-- `mov` to `ecx`, `or` and `lea` with `ecx`, and the jump. -/
theorem Loading.step_ecx (h : Loading im s₀ k s) (him : im.Linked) (hs : HandOver im s₀) (hk : k < 10) (hk1 : k ≠ 1)
    (hk4 : k ≠ 4) (hk7 : k ≠ 7) : ∃ t, s.step = some t ∧ Loading im s₀ (k + 1) t := by
  have hreg : ∀ (m : Machine) (v : U32) r, r ≠ .ecx → (m.setReg .ecx v).reg r = m.reg r := fun m v r =>
    m.reg_setReg_of_ne v
  have hecx : ∀ (m : Machine) (v : U32), (m.setReg .ecx v).reg .ecx = v := fun m v => m.reg_setReg_same .ecx v
  have hcur := h.ecx
  obtain rfl | rfl | rfl | rfl | rfl | rfl | rfl : k = 0 ∨ k = 2 ∨ k = 3 ∨ k = 5 ∨ k = 6 ∨ k = 8 ∨ k = 9 := by omega
  · refine ⟨_, h.step_eq him hs (by omega) rfl (fun _ => rfl), ?_⟩
    exact h.next_ecx hk hk1 hk4 hk7 rfl (hreg _ _) (hecx _ _) rfl rfl rfl rfl
  · refine ⟨_, h.step_eq him hs (by omega) rfl (fun _ => rfl), ?_⟩
    exact h.next_ecx hk hk1 hk4 hk7 rfl (hreg _ _) (hecx _ _) rfl rfl rfl rfl
  · refine ⟨_, h.step_eq him hs (by omega) rfl (fun _ => rfl), ?_⟩
    refine h.next_ecx hk hk1 hk4 hk7 rfl (hreg _ _) ?_ (getLsbD_orFlags_nine ..) rfl rfl rfl
    exact (hecx s (s.reg .ecx ||| 0x10)).trans (congrArg (· ||| (0x10 : U32)) hcur)
  · refine ⟨_, h.step_eq him hs (by omega) rfl (fun _ => rfl), ?_⟩
    exact h.next_ecx hk hk1 hk4 hk7 rfl (hreg _ _) (hecx _ _) rfl rfl rfl rfl
  · refine ⟨_, h.step_eq him hs (by omega) rfl (fun _ => rfl), ?_⟩
    refine h.next_ecx hk hk1 hk4 hk7 rfl (hreg _ _) ?_ (getLsbD_orFlags_nine ..) rfl rfl rfl
    exact (hecx s (s.reg .ecx ||| 0x80000001)).trans (congrArg (· ||| (0x80000001 : U32)) hcur)
  · refine ⟨_, h.step_eq him hs (by omega) rfl (fun _ => rfl), ?_⟩
    exact h.next_ecx hk hk1 hk4 hk7 rfl (hreg _ _) (hecx _ _) rfl rfl rfl rfl
  · refine ⟨_, h.step_eq him hs (by omega) rfl (fun _ => rfl), ?_⟩
    exact h.next_ecx hk hk1 hk4 hk7 hcur (fun _ _ => rfl) rfl rfl rfl rfl rfl

/-- `cr3` is loaded. Nothing is cached behind it. -/
theorem Loading.step_cr3 (h : Loading im s₀ 1 s) (him : im.Linked) (hs : HandOver im s₀) :
    ∃ t, s.step = some t ∧ Loading im s₀ 2 t := by
  refine ⟨_, h.step_eq him hs (by omega) rfl (fun _ => rfl), ?_⟩
  have hcr3 : Function.update s.cr .cr3 (s.reg .ecx) .cr3 = s.reg .ecx := Function.update_self ..
  refine h.next_low (by omega) rfl (fun _ _ => rfl) rfl rfl rfl h.paging rfl rfl ?_ (fun hk => absurd hk (by omega)) ?_
  · exact fun _ => hcr3.trans h.ecx
  · intro _ a μ (hμ : (if s.globalPages then s.tlb else fun _ => none) a = some μ)
    rw [h.globalPages] at hμ
    cases hμ

/-- Big pages are turned on. -/
theorem Loading.step_cr4 (h : Loading im s₀ 4 s) (him : im.Linked) (hs : HandOver im s₀) :
    ∃ t, s.step = some t ∧ Loading im s₀ 5 t := by
  refine ⟨_, h.step_eq him hs (by omega) rfl (fun _ => rfl), ?_⟩
  have hcr4 : Function.update s.cr .cr4 (s.reg .ecx) .cr4 = s.cr .cr4 ||| 0x10 :=
    (Function.update_self ..).trans h.ecx
  have hbit : ∀ i, (Function.update s.cr .cr4 (s.reg .ecx) .cr4).getLsbD i =
      ((s.cr .cr4).getLsbD i || (0x10 : U32).getLsbD i) := fun i => by rw [hcr4, BitVec.getLsbD_or]
  refine h.next_low (by omega) rfl (fun _ _ => rfl) rfl rfl rfl h.paging ?_ ?_ ?_ ?_ ?_
  · exact (hbit 5).trans (Bool.or_false _)
  · exact (hbit 7).trans (Bool.or_false _)
  · exact fun _ => h.cr3 (by omega)
  · exact fun _ => (hbit 4).trans (Bool.or_true _)
  · exact fun _ => h.cache (by omega)

/-- Paging is turned on. -/
theorem Loading.step_cr0 (h : Loading im s₀ 7 s) (him : im.Linked) (hs : HandOver im s₀) :
    ∃ t, s.step = some t ∧ Loading im s₀ 8 t := by
  have hbit : ∀ i, (s.reg .ecx).getLsbD i = ((s.cr .cr0).getLsbD i || (0x80000001 : U32).getLsbD i) := fun i => by
    rw [h.ecx, ecxAfter, BitVec.getLsbD_or]
  have hpaging : (s.reg .ecx).getLsbD 31 = true := (hbit 31).trans (Bool.or_true _)
  have hprotect : (s.reg .ecx).getLsbD 0 = true := (hbit 0).trans (Bool.or_true _)
  have hstep := h.step_eq him hs (by omega) rfl (fun _ => rfl)
  have hcr0 : Function.update s.cr .cr0 (s.reg .ecx) .cr0 = s.reg .ecx := Function.update_self ..
  rw [Instr.exec, Machine.setCr] at hstep
  simp only [hpaging, hprotect, Bool.not_true, Bool.and_false, Bool.false_eq_true, if_false] at hstep
  refine ⟨_, hstep, h.next_low (by omega) rfl (fun _ _ => rfl) rfl rfl rfl ?_ rfl rfl ?_ ?_ ?_⟩
  · exact (congrArg (fun v : U32 => v.getLsbD 31) hcr0).trans hpaging
  · exact fun _ => h.cr3 (by omega)
  · exact fun _ => h.bigPages (by omega)
  · exact fun _ => h.cache (by omega)

/-- The first 4 MiB are unmapped. -/
theorem Loading.step_store (h : Loading im s₀ 10 s) (him : im.Linked) (hs : HandOver im s₀) :
    ∃ t, s.step = some t ∧ Loading im s₀ 11 t := by
  have hstart := him.directory_start
  have hend := him.directory_end
  have hreaches : ∀ i : ℕ, i < 4 → Machine.Reaches { s with eip := im.address 11 } (im.directory + (i : U32))
      (im.directory - KERNEL_VIRTUAL_BASE + (i : U32)) := by
    intro i hi
    have hnat : (im.directory + (i : U32)).toNat = im.directory.toNat + i := BitVec.toNat_add_cast (by omega)
    rw [sub_base_add]
    exact (h.reaches him (by omega) (by omega) (by omega)).congr rfl rfl rfl
  have hstored : ({ s with eip := im.address 11 } : Machine).store32 im.directory 0 =
      some { s with eip := im.address 11, mem := s.mem.store32 (im.directory - KERNEL_VIRTUAL_BASE) 0 } :=
    Machine.store32_of_reaches hreaches 0
  refine ⟨_, (h.step_eq him hs (by omega) rfl (fun hk => absurd hk (by omega))).trans hstored,
    h.next_high (by omega) rfl (fun _ _ => rfl) rfl rfl (fun hk => absurd hk (by omega))
      (fun hk => absurd hk (by omega)) ?_ ?_ (h.cache (by omega))⟩
  · intro n hn
    by_cases h0 : n = 0
    · subst h0
      rw [Nat.cast_zero, mul_zero, add_zero, Memory.load32_store32]
      rfl
    · have hkept := h.entries n hn
      rw [bootEntry, if_congr (or_iff_left fun hz => h0 hz.2) rfl rfl] at hkept
      rw [bootEntry, if_congr (or_iff_left fun hz => h0 hz.2) rfl rfl, ← hkept]
      refine Memory.load32_congr fun i hi => Memory.byte_store32_of_ne fun j hj heq => ?_
      have hplace := him.toNat_entry hn hi
      have hfirst := him.toNat_entry (n := 0) (by omega) hj
      rw [Nat.cast_zero, mul_zero, add_zero, ← heq] at hfirst
      omega
  · intro x hx _
    refine Memory.byte_store32_of_ne fun i hi heq => hx ?_
    have hfirst := him.toNat_entry (n := 0) (by omega) hi
    rw [Nat.cast_zero, mul_zero, add_zero, ← heq] at hfirst
    rw [Image.In, toNat_add_base (by omega)]
    omega

/-- What is cached of the page that is unmapped goes. -/
theorem Loading.step_invlpg (h : Loading im s₀ 11 s) (him : im.Linked) (hs : HandOver im s₀) :
    ∃ t, s.step = some t ∧ Loading im s₀ 12 t := by
  refine ⟨_, h.step_eq him hs (by omega) rfl (fun hk => absurd hk (by omega)),
    h.next_high (by omega) rfl (fun _ _ => rfl) rfl rfl (fun hk => absurd hk (by omega))
      (fun hk => absurd hk (by omega)) h.entries (fun _ _ _ => rfl) ?_⟩
  intro a μ (hμ : (s.tlb a).filter (fun μ => a >>> μ.bits != (0 : U32) >>> μ.bits) = some μ)
  obtain ⟨hμ, hpage⟩ := Option.filter_eq_some_iff.mp hμ
  have hboot := h.cache (by omega) a μ hμ
  rw [bits_of_bootMapping hboot] at hpage
  rw [bootMapping] at hboot
  split_ifs at hboot with hlow
  · refine absurd hpage ?_
    have hzero : a >>> 22 = (0 : U32) >>> 22 := by
      apply BitVec.eq_of_toNat_eq
      rw [BitVec.toNat_ushiftRight, Nat.shiftRight_eq_div_pow, Nat.div_eq_of_lt hlow.2]
      rfl
    rw [hzero]
    decide
  · exact (bootMapping_false a).trans hboot

theorem Loading.step_stack (h : Loading im s₀ 12 s) (him : im.Linked) (hs : HandOver im s₀) :
    ∃ t, s.step = some t ∧ Loading im s₀ 13 t := by
  refine ⟨_, h.step_eq him hs (by omega) rfl (fun hk => absurd hk (by omega)),
    h.next_high (by omega) rfl (fun _ hr => Machine.reg_setReg_of_ne _ _ hr) rfl rfl ?_ (fun _ => trivial)
      h.entries (fun _ _ _ => rfl) (h.cache (by omega))⟩
  intro _
  rw [Nat.sub_self, Nat.mul_zero, Nat.cast_zero, sub_zero]
  exact Machine.reg_setReg_same s .esp im.stack_top

/-- The next word is pushed on the boot stack. -/
theorem Loading.push (h : Loading im s₀ k s) (him : im.Linked) (hk : 13 ≤ k) (hk' : k < 16) (e v : U32)
    (hv : [im.address 16, s₀.reg .ebx, s₀.reg .eax].drop (16 - (k + 1)) =
      v :: [im.address 16, s₀.reg .ebx, s₀.reg .eax].drop (16 - k)) :
    ∃ t : Machine, ({ s with eip := e } : Machine).push v = some { t with eip := e } ∧
      ∀ e', e' = (if k + 1 < 16 then im.address (k + 1) else im.kmain) → Loading im s₀ (k + 1) { t with eip := e' } := by
  have hstart := him.stack_start
  have hend := him.stack_end
  have hesp := h.esp hk
  have hnat : (s.reg .esp).toNat = im.stack_top.toNat - 4 * (k - 13) := by
    rw [hesp, BitVec.natCast_eq_ofNat, BitVec.toNat_sub_of_le, BitVec.toNat_ofNat]
    · omega
    · rw [BitVec.le_def, BitVec.toNat_ofNat]
      omega
  have hnat' : (s.reg .esp - 4).toNat = im.stack_top.toNat - 4 * (k - 13) - 4 := by bv_omega
  have hplace : s.reg .esp - 4 - KERNEL_VIRTUAL_BASE = s.reg .esp - KERNEL_VIRTUAL_BASE - 4 := sub_right_comm ..
  have hbytes : ∀ i : ℕ, i < 4 → (s.reg .esp - 4 - KERNEL_VIRTUAL_BASE + (i : U32) + KERNEL_VIRTUAL_BASE).toNat =
      im.stack_top.toNat - 4 * (k - 13) - 4 + i := by
    intro i hi
    rw [sub_base_add, sub_add_cancel, BitVec.toNat_add_cast (by omega), hnat']
  have hreaches : ∀ i : ℕ, i < 4 → Machine.Reaches { s with eip := e } (s.reg .esp - 4 + (i : U32))
      (s.reg .esp - 4 - KERNEL_VIRTUAL_BASE + (i : U32)) := by
    intro i hi
    have hi' : (s.reg .esp - 4 + (i : U32)).toNat = (s.reg .esp - 4).toNat + i := BitVec.toNat_add_cast (by omega)
    rw [sub_base_add]
    exact (h.reaches him (by omega) (by omega) (by omega)).congr rfl rfl rfl
  have hlen : ([im.address 16, s₀.reg .ebx, s₀.reg .eax].drop (16 - k)).length ≤ 3 := by
    rw [List.length_drop]
    exact Nat.sub_le ..
  have hcache := h.cache (by omega)
  rw [decide_eq_false (show ¬ k < 12 by omega), ← decide_eq_false (show ¬ k + 1 < 12 by omega)] at hcache
  have hdir := h.entries
  rw [decide_eq_false (show ¬ k < 11 by omega)] at hdir
  refine ⟨{ s.setReg .esp (s.reg .esp - 4) with mem := s.mem.store32 (s.reg .esp - 4 - KERNEL_VIRTUAL_BASE) v },
    Machine.push_of_reaches hreaches v, fun e' he' => h.next_high (by omega) he'
      (fun _ hr => Machine.reg_setReg_of_ne s _ hr) rfl rfl ?_ ?_ ?_ ?_ hcache⟩
  · intro _
    refine (Machine.reg_setReg_same s .esp _).trans ?_
    rw [hesp, show k + 1 - 13 = k - 13 + 1 by omega, Nat.mul_succ, Nat.cast_add, ← sub_sub]
    rfl
  · intro _
    rw [hv]
    have hwords := h.words hk
    generalize [im.address 16, s₀.reg .ebx, s₀.reg .eax].drop (16 - k) = ws at hwords hlen
    have htop : HasWords (s.mem.store32 (s.reg .esp - 4 - KERNEL_VIRTUAL_BASE) v)
        (s.reg .esp - 4 - KERNEL_VIRTUAL_BASE) (v :: ws) := by
      refine ⟨Memory.load32_store32 .., ?_⟩
      rw [hplace, sub_add_cancel]
      exact hwords.sameBut (X86.sameBut_store32 s.mem _ v) (by omega)
    rw [← Machine.reg_setReg_same s .esp (s.reg .esp - 4)] at htop
    exact htop
  · intro n hn
    rw [← hdir n hn]
    refine him.load32_entry (fun x hx => Memory.byte_store32_of_ne fun i hi heq => ?_) hn
    refine him.directory_stack _ hx ?_
    rw [Image.In, heq, hbytes i hi]
    bv_omega
  · intro x _ hx
    refine Memory.byte_store32_of_ne fun i hi heq => hx ?_
    rw [Image.In, heq, hbytes i hi]
    bv_omega

/-- Each of the sixteen instructions goes through. -/
theorem Loading.step (h : Loading im s₀ k s) (him : im.Linked) (hs : HandOver im s₀) (hk : k < 16) :
    ∃ t, s.step = some t ∧ Loading im s₀ (k + 1) t := by
  have hlow : k < 10 ∧ k ≠ 1 ∧ k ≠ 4 ∧ k ≠ 7 ∨ k = 1 ∨ k = 4 ∨ k = 7 ∨ k = 10 ∨ k = 11 ∨ k = 12 ∨ k = 13 ∨ k = 14 ∨
      k = 15 := by omega
  rcases hlow with ⟨hk', hk1, hk4, hk7⟩ | rfl | rfl | rfl | rfl | rfl | rfl | rfl | rfl | rfl
  · exact h.step_ecx him hs hk' hk1 hk4 hk7
  · exact h.step_cr3 him hs
  · exact h.step_cr4 him hs
  · exact h.step_cr0 him hs
  · exact h.step_store him hs
  · exact h.step_invlpg him hs
  · exact h.step_stack him hs
  · obtain ⟨t, ht, hnext⟩ := h.push him (by omega) (by omega) (im.address 14) (s.reg .eax) (by rw [h.eax]; rfl)
    exact ⟨_, (h.step_eq him hs hk rfl (fun hk => absurd hk (by omega))).trans ht, hnext _ rfl⟩
  · obtain ⟨t, ht, hnext⟩ := h.push him (by omega) (by omega) (im.address 15) (s.reg .ebx) (by rw [h.ebx]; rfl)
    exact ⟨_, (h.step_eq him hs hk rfl (fun hk => absurd hk (by omega))).trans ht, hnext _ rfl⟩
  · obtain ⟨t, ht, hnext⟩ := h.push him (by omega) (by omega) (im.address 16) (im.address 16) rfl
    refine ⟨{ t with eip := im.kmain }, (h.step_eq him hs hk rfl (fun hk => absurd hk (by omega))).trans ?_,
      hnext _ rfl⟩
    exact congrArg (Option.map fun s : Machine => { s with eip := im.kmain }) ht

/-- The cache may look up what the directory says. -/
theorem Loading.lookup (h : Loading im s₀ k s) (him : im.Linked) (a : U32) : Loading im s₀ k (s.lookup a) := by
  have hcache := fun hk => Machine.tlb_lookup (h.cache hk) (b := a) fun hp μ hμ => by
    rw [h.paging, decide_eq_true_iff] at hp
    rw [h.walk_eq him hp] at hμ
    by_cases hlow : k < 11
    · rwa [decide_eq_true hlow, ← decide_eq_true (show k < 12 by omega)] at hμ
    · rw [decide_eq_false hlow] at hμ
      by_cases hold : k < 12
      · rw [decide_eq_true hold, bootMapping_true hμ]
      · rw [decide_eq_false hold, hμ]
  rw [Machine.lookup_eq]
  exact { h with cache := hcache }

theorem Loading.drop (h : Loading im s₀ k s) (a : U32) : Loading im s₀ k (s.drop a) :=
  { h with cache := fun hk => Machine.tlb_drop (h.cache hk) a }

end Steps

/-! ## The entry to `kmain` -/

theorem Loading.entered {im : Image} {s t : Machine} (h : Loading im s 16 t) (him : im.Linked) : Entered im s t := by
  have hstart := him.stack_start
  have hend := him.stack_end
  have hesp : t.reg .esp = im.stack_top - 12 := h.esp (by omega)
  have hnat : (t.reg .esp).toNat = im.stack_top.toNat - 12 := by
    rw [hesp]
    bv_omega
  have hload : ∀ j : ℕ, j ≤ 8 → t.load32 (t.reg .esp + (j : U32)) =
      some (t.mem.load32 (t.reg .esp - KERNEL_VIRTUAL_BASE + (j : U32))) := by
    intro j hj
    refine Machine.load32_of_reaches fun i hi => ?_
    have hplace : (t.reg .esp + (j : U32) + (i : U32)).toNat = (t.reg .esp).toNat + j + i := by
      rw [BitVec.toNat_add_cast (by rw [BitVec.toNat_add_cast (by omega)]; omega), BitVec.toNat_add_cast (by omega)]
    rw [sub_base_add, sub_base_add]
    exact h.reaches him (by omega) (by omega) (by omega)
  obtain ⟨-, hbx, hax, -⟩ := h.words (by omega)
  refine
    { paging := h.paging
      bigPages := h.bigPages (by omega)
      pae := h.pae
      globalPages := h.globalPages
      walk := fun a => (h.walk_eq him (by omega) a).trans (bootMapping_false a)
      cached := fun a μ hμ => (bootMapping_false a).symm.trans (h.cache (by omega) a μ hμ)
      eip := h.eip
      esp := hesp
      mbi := (hload 4 (by omega)).trans (congrArg some hbx)
      multibootMagic := (hload 8 (by omega)).trans (congrArg some ?_)
      interrupts := h.interrupts
      mem := h.mem }
  rw [← hax, add_assoc]
  rfl

/-- The loader reaches `kmain`, whatever the processor looks up and loses meanwhile. -/
theorem loader_enters_kmain {im : Image} {s : Machine} (him : im.Linked) (hs : HandOver im s) (events : List Event)
    (hcount : events.count .step ≤ 16) :
    ∃ t, s.after events = some t ∧ (events.count .step = 16 → Entered im s t) := by
  obtain ⟨t, ht, h⟩ := Machine.after_of_step (P := Loading im s) (fun _ _ hk h => h.step him hs hk)
    (fun _ _ a h => h.lookup him a) (fun _ _ a h => h.drop a) (Loading.zero hs) events (by omega)
  refine ⟨t, ht, fun hall => ?_⟩
  rw [hall] at h
  exact h.entered him

/-- A small kernel with its data behind its code. -/
def smallImage : Image where
  loader := 0xC0100010
  kmain := 0xC0101000
  directory := 0xC0108000
  stack_top := 0xC0107000
  text := [
    [0xB9, 0x00, 0x80, 0x10, 0x00], [0x0F, 0x22, 0xD9], [0x0F, 0x20, 0xE1], [0x83, 0xC9, 0x10], [0x0F, 0x22, 0xE1],
    [0x0F, 0x20, 0xC1], [0x81, 0xC9, 0x01, 0x00, 0x00, 0x80], [0x0F, 0x22, 0xC1],
    [0x8D, 0x0D, 0x35, 0x00, 0x10, 0xC0], [0xFF, 0xE1],
    [0xC7, 0x05, 0x00, 0x80, 0x10, 0xC0, 0x00, 0x00, 0x00, 0x00], [0x0F, 0x01, 0x3D, 0x00, 0x00, 0x00, 0x00],
    [0xBC, 0x00, 0x70, 0x10, 0xC0], [0x50], [0x53], [0xE8, 0xAE, 0x0F, 0x00, 0x00], [0xFA], [0xF4], [0xEB, 0xFD]]

theorem smallImage_linked : smallImage.Linked where
  length := rfl
  encodes := by
    have hall : ∀ k : Fin 19, Ia32.decode (fun j => (smallImage.text.get k)[j]?) (smallImage.address k) =
        some (smallImage.code.get k, (smallImage.text.get k).length) := by decide +kernel
    intro k i bytes hi hbytes
    obtain ⟨hk, rfl⟩ := List.getElem?_eq_some_iff.mp hi
    obtain ⟨hk', rfl⟩ := List.getElem?_eq_some_iff.mp hbytes
    exact encodes_of_decode (hall ⟨k, hk⟩)
  text_start := by decide
  text_end := by decide
  directory_aligned := by decide
  directory_start := by decide
  directory_end := by decide
  stack_start := by decide
  stack_end := by decide
  text_directory a h h' := by
    have hend : smallImage.loader.toNat + smallImage.text.flatten.length ≤ smallImage.directory.toNat := by decide
    exact absurd h'.1 (by have := h.2; omega)
  text_stack a h h' := by
    have hend : smallImage.loader.toNat + smallImage.text.flatten.length ≤ (smallImage.stack_top - 16384).toNat := by
      decide
    exact absurd h'.1 (by have := h.2; omega)
  directory_stack a h h' := by
    have hend : (smallImage.stack_top - 16384).toNat + 16384 ≤ smallImage.directory.toNat := by decide
    exact absurd h.1 (by have := h'.2; omega)

/-- The small kernel in memory, and nothing else. -/
def smallMemory : Memory U32 where
  byte x :=
    if x < 0x108000 then (smallImage.text.flatten[(x - 0x100010).toNat]?).getD 0
    else if x = 0x108000 ∨ x = 0x108C00 then 0x83
    else 0

/-- Entered with paging off. -/
def smallMachine : Machine where
  reg r := if r = .eax then 0x2BADB002 else if r = .ebx then 0x9500 else 0
  eip := 0x100010
  eflags := 0x2
  cr c := if c = .cr0 then 0x11 else 0
  tlb _ := none
  mem := smallMemory

theorem smallMachine_handOver : HandOver smallImage smallMachine where
  loaded :=
    { text := by
        have hall : ∀ j : Fin smallImage.text.flatten.length,
            smallMemory.byte (smallImage.loader - KERNEL_VIRTUAL_BASE + ((j : ℕ) : U32)) =
              smallImage.text.flatten.get j := by decide +kernel
        exact fun j h => hall ⟨j, h⟩
      directory := by
        have hall : ∀ n : Fin 1024,
            smallMemory.load32 (smallImage.directory - KERNEL_VIRTUAL_BASE + 4 * ((n : ℕ) : U32)) =
              bootEntry true n := by decide +kernel
        intro n h
        have hn : n < 1024 := by rwa [bootPageDirectory_length] at h
        have hget := bootPageDirectory_getElem? hn
        rw [List.getElem?_eq_getElem h] at hget
        exact (hall ⟨n, hn⟩).trans (Option.some.inj hget).symm }
  eip := rfl
  paging := rfl
  pae := rfl
  globalPages := rfl
  interrupts := rfl

/-- The small kernel is entered, with a translation looked up that is unmapped later. -/
theorem loader_enters_kmain_small :
    ∃ t, smallMachine.after (List.replicate 8 .step ++ .lookup 0x1000 :: List.replicate 8 .step) = some t ∧
      Entered smallImage smallMachine t := by
  obtain ⟨t, ht, hentered⟩ := loader_enters_kmain smallImage_linked smallMachine_handOver
    (List.replicate 8 .step ++ .lookup 0x1000 :: List.replicate 8 .step) (by decide)
  exact ⟨t, ht, hentered (by decide)⟩

end Pros
