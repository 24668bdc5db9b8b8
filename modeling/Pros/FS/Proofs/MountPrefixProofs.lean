import Pros.FS.Resolution
import Pros.FS.Proofs.MountTableProofs

/-!
# Mounted prefixes and refused mounts

A lookup stops at the longest prefix that has an entry, mounted or not. So it finds the longest mounted
prefix exactly when the two are the same, and a mount disturbs other paths exactly when it adds entries
on their way. A mount is refused at `/` only.
-/

namespace Pros

open VFS

variable {F : Type} {v : VFS F} {path : ℕ → List CString} {c c' : MountClient F}
  {calls : List (CString × F × Bool)} {l l' ts : List CString} {p q : CString} {f : F} {file : Option F}

/-! ## Mounts and entries -/

theorem lastFile_ne_none : lastFile calls l ≠ none ↔ HasMount calls l := by
  unfold HasMount
  induction calls with
  | nil => simp [lastFile]
  | cons x calls ih =>
    rw [lastFile, List.exists_mem_cons_iff]
    by_cases hx : x.2.2 = true ∧ tok x.1 = l
    · rw [if_pos hx]
      exact iff_of_true (Option.some_ne_none _) (Or.inl hx)
    · rw [if_neg hx, ih, or_iff_right hx]

theorem HasMount.hasEntry (h : HasMount calls l) : HasEntry calls l := by
  obtain ⟨x, hx, -, rfl⟩ := h
  exact Or.inr ⟨x, hx, List.prefix_refl _⟩

/-- Entries are closed under prefixes. -/
theorem HasEntry.of_initial (h : HasEntry calls l) (hl : l' <+: l) : HasEntry calls l' := by
  rcases h with rfl | ⟨x, hx, hlx⟩
  · exact Or.inl (List.prefix_nil.mp hl)
  · exact Or.inr ⟨x, hx, hl.trans hlx⟩

theorem LongestEntry.unique (h : LongestEntry calls ts l) (h' : LongestEntry calls ts l') : l = l' :=
  (h'.2.2 l h.1 h.2.1).eq_of_length_le (h.2.2 l' h'.1 h'.2.1).length_le

/-- An entry has one component list. -/
theorem EntryAt.list_unique (h : v.Tree path) {i : ℕ} (hl : EntryAt v l i) (hl' : EntryAt v l' i) :
    l = l' :=
  ((entryAt_iff h).mp hl).2.symm.trans ((entryAt_iff h).mp hl').2

/-! ## The longest mounted prefix -/

/-- The lookup finds the longest mounted prefix exactly when the longest prefix with an entry is one. -/
theorem MountInv.findsMount_iff (h : MountInv c path) (q : CString) :
    FindsMount c q ↔ ∀ l, LongestEntry c.calls (tok q) l → HasMount c.calls l := by
  obtain ⟨l, hlong, hres, hfile⟩ := h.resolves q
  constructor
  · rintro ⟨-, hne⟩ l' hl'
    rw [← hlong.unique hl', ← lastFile_ne_none, ← hfile]
    exact hne
  · intro hall
    have hmount := hall l hlong
    refine ⟨⟨l, ⟨hlong.1, hmount, fun l' hl' hm => hlong.2.2 l' hl' hm.hasEntry⟩, hres.entryAt⟩, ?_⟩
    rw [hfile]
    exact lastFile_ne_none.mpr hmount

/-- A path keeps its entry exactly when the new call has no new prefix in common with it. -/
theorem MountInv.getMount_eq_iff (h : MountInv c path) (p q : CString) (f : F) :
    (c.vfs.mount p (some f)).2.getMount q = c.vfs.getMount q ↔
      ∀ l, l <+: tok p → l <+: tok q → HasEntry c.calls l := by
  obtain ⟨path', h', hkeep⟩ := h.mount p f
  obtain ⟨l, hlong, hres, -⟩ := h.resolves q
  obtain ⟨l', hlong', hres', -⟩ := h'.resolves q
  simp only at hres'
  -- The old entry is still there.
  have hold : EntryAt (c.vfs.mount p (some f)).2 l (c.vfs.getMount q) := by
    obtain ⟨hlt, hpath⟩ := (entryAt_iff h.tree).mp hres.entryAt
    obtain ⟨hlt', hpath', -⟩ := hkeep _ hlt
    exact (entryAt_iff h'.tree).mpr ⟨hlt', hpath'.trans hpath⟩
  constructor
  · intro heq l0 hl0 hq
    rw [← heq] at hold
    obtain rfl := hold.list_unique h'.tree hres'.entryAt
    have hentry : HasEntry ((p, f, (c.vfs.mount p (some f)).1) :: c.calls) l0 :=
      hasEntry_cons.mpr (Or.inr hl0)
    exact hlong.2.1.of_initial (hlong'.2.2 l0 hq hentry)
  · intro hall
    have hentry : HasEntry c.calls l' := by
      rcases hasEntry_cons.mp hlong'.2.1 with he | hp
      · exact he
      · exact hall l' hp hlong'.1
    have hle := hlong.2.2 l' hlong'.1 hentry
    have hge := hlong'.2.2 l hlong.1 (hasEntry_cons.mpr (Or.inl hlong.2.1))
    obtain rfl := hge.eq_of_length_le hle.length_le
    exact (hres'.unique _ hold).symm

/-- Mounting at `p` leaves the paths alone that are not below it exactly when their common prefixes had
    entries before. -/
theorem MountInv.keepsMount_iff (h : MountInv c path) (p q : CString) (f : F) :
    (¬ KeepsMount c.vfs p f q → tok p <+: tok q) ↔
      tok p <+: tok q ∨ ∀ l, l <+: tok p → l <+: tok q → HasEntry c.calls l := by
  rw [← h.getMount_eq_iff p q f]
  by_cases hpq : tok p <+: tok q
  · exact iff_of_true (fun _ => hpq) (Or.inl hpq)
  · rw [or_iff_right hpq, imp_iff_not hpq, not_not]
    constructor
    · exact fun hk => hk.1
    · intro heq
      refine ⟨heq, ?_⟩
      obtain ⟨path', h', hkeep⟩ := h.mount p f
      obtain ⟨l, hlong, hres, -⟩ := h.resolves q
      obtain ⟨hlt, hpath⟩ := (entryAt_iff h.tree).mp hres.entryAt
      refine (hkeep _ hlt).2.2 ?_
      rintro heq'
      rw [← heq', hpath] at hpq
      exact hpq hlong.1

/-- The longest mounted prefix. After any sequence of mounts, `getMount` finds the entry of the longest
    mounted prefix of a path exactly when the longest prefix with an entry is mounted; and mounting at
    `p` changes what is found only below `p` exactly when the other paths have no new entry on their
    way. -/
theorem longest_mount_iff {ops : List (CString × F)} (hrun : Run MountClient.Step .new ops c) :
    (∀ q : CString, q.head? = some slash →
      (FindsMount c q ↔ ∀ l, LongestEntry c.calls (tok q) l → HasMount c.calls l)) ∧
    ∀ (p q : CString) (f : F), p.head? = some slash → q.head? = some slash →
      ((¬ KeepsMount c.vfs p f q → tok p <+: tok q) ↔
        tok p <+: tok q ∨ ∀ l, l <+: tok p → l <+: tok q → HasEntry c.calls l) := by
  obtain ⟨path, h⟩ := MountInv.new.run hrun
  exact ⟨fun q _ => h.findsMount_iff q, fun p q f _ _ => h.keepsMount_iff p q f⟩

/-- With mounts at `/` and `/a`, the path `/a/a` is resolved to the file at `/a`, and mounting there does not disturb
    `/a`. -/
theorem longest_mount_nested : ∃ c : MountClient Bool,
    Run MountClient.Step .new [([slash], true), ([slash, letterA], false)] c ∧
    FindsMount c [slash, letterA, slash, letterA] ∧
    KeepsMount c.vfs [slash, letterA, slash, letterA] true [slash, letterA] := by
  obtain ⟨c, hrun, hcalls⟩ := nested_mounts
  obtain ⟨hfinds, hkeeps⟩ := longest_mount_iff hrun
  refine ⟨c, hrun, (hfinds _ rfl).mpr fun l hlong => ?_, ?_⟩
  · rw [hcalls] at hlong ⊢
    obtain rfl := hlong.nested (by decide)
    exact ⟨_, List.mem_cons_self, rfl, by decide⟩
  · by_contra hno
    have hbelow := (hkeeps [slash, letterA, slash, letterA] [slash, letterA] true rfl rfl).mpr
      (Or.inr fun l _ hl => Or.inr ⟨([slash, letterA], false, true), by rw [hcalls]; exact List.mem_cons_self, hl⟩)
    exact absurd (hbelow hno) (by decide)

/-- With mounts at `/` and `/a/a`, the path `/a` is resolved to an entry without a file; and the second
    mount has changed what `/a` is resolved to, which is not below it. -/
theorem entry_without_file : ∃ c c' : MountClient Bool,
    Run MountClient.Step .new [([slash], true)] c ∧
    c.Step ([slash, letterA, slash, letterA], false) c' ∧
    (∀ x ∈ c'.calls, x.2.2 = true ∧ Normalised x.1) ∧ Normalised [slash, letterA] ∧
    ¬ FindsMount c' [slash, letterA] ∧
    ¬ (¬ KeepsMount c.vfs [slash, letterA, slash, letterA] false [slash, letterA] →
      tok [slash, letterA, slash, letterA] <+: tok [slash, letterA]) := by
  have hrun : Run (MountClient.Step (F := Bool)) .new [([slash], true)] _ :=
    .snoc ([slash], true) .nil ⟨rfl, rfl⟩
  obtain ⟨path, h⟩ := MountInv.new.run hrun
  obtain ⟨path', h', -⟩ := h.mount [slash, letterA, slash, letterA] false
  refine ⟨_, _, hrun, ⟨rfl, rfl⟩, ?_, by right; decide, ?_, ?_⟩
  · simp only [List.forall_mem_cons]
    exact ⟨⟨rfl, by right; decide⟩, ⟨rfl, Or.inl rfl⟩, by rintro x ⟨⟩⟩
  · rw [h'.findsMount_iff]
    intro hall
    obtain ⟨x, hx, -, htok⟩ := hall [[letterA]]
      ⟨by decide, Or.inr ⟨_, List.mem_cons_self, by decide⟩, fun l' hl' _ => hl'⟩
    rcases List.mem_cons.mp hx with rfl | hx
    · exact absurd htok (by decide)
    · obtain rfl := List.mem_singleton.mp hx
      exact absurd htok (by decide)
  · rw [h.keepsMount_iff]
    rintro (hpre | hall)
    · exact absurd hpre (by decide)
    · rcases hall [[letterA]] (by decide) (by decide) with hnil | ⟨x, hx, htok⟩
      · cases hnil
      · obtain rfl := List.mem_singleton.mp hx
        exact absurd htok (by decide)

/-! ## Refused mounts -/

/-- At `/` a second mount is refused. -/
theorem refused_root (h : (v.nodes v.tree).file.isSome = true) : Refused v [slash] file := by
  constructor
  · unfold VFS.mount
    rw [if_pos ⟨rfl, rfl⟩, if_pos h]
  · unfold mountKlog
    rw [if_pos ⟨rfl, rfl⟩]
    exact Option.some_ne_none _ ∘ Eq.symm

/-- Elsewhere `mount` drops what `mountRecursive` returns. -/
theorem not_refused (v : VFS F) (file : Option F) (hp : p.head? = some slash) (hne : p ≠ [slash]) :
    ¬ Refused v p file := by
  have hlen : ¬ (p.head? = some slash ∧ strlen p = 1) := by
    rintro ⟨-, hlen⟩
    obtain ⟨a, rfl⟩ := List.length_eq_one_iff.mp hlen
    rw [List.head?_cons] at hp
    rw [Option.some.inj hp] at hne
    exact hne rfl
  rintro ⟨hmount, -⟩
  unfold VFS.mount at hmount
  rw [if_neg hlen] at hmount
  exact absurd (congrArg Prod.fst hmount) Bool.noConfusion

theorem MountInv.file_root (h : MountInv c path) (hm : HasMount c.calls []) :
    (c.vfs.nodes c.vfs.tree).file.isSome = true := by
  rw [h.files _ h.tree.root_mem, h.tree.path_root]
  exact Option.isSome_iff_ne_none.mpr (lastFile_ne_none.mpr hm)

/-- A second mount on a component list, also of a null file, is refused exactly at `/`. -/
theorem mount_refused_iff {ops : List (CString × F)} (hrun : Run MountClient.Step .new ops c)
    (hp : p.head? = some slash) (hm : HasMount c.calls (tok p)) (file : Option F) :
    Refused c.vfs p file ↔ p = [slash] := by
  obtain ⟨path, h⟩ := MountInv.new.run hrun
  constructor
  · intro hr
    by_contra hne
    exact not_refused c.vfs file hp hne hr
  · rintro rfl
    exact refused_root (h.file_root hm)

theorem mount_refused_root : ∃ c : MountClient Bool, Run MountClient.Step .new [([slash], true)] c ∧
    (Refused c.vfs [slash] none ↔ [slash] = [slash]) := by
  have hrun : Run (MountClient.Step (F := Bool)) .new [([slash], true)] _ :=
    .snoc ([slash], true) .nil ⟨rfl, rfl⟩
  exact ⟨_, hrun, mount_refused_iff hrun rfl ⟨_, List.mem_cons_self, rfl, rfl⟩ none⟩

/-- Elsewhere the conflict is reported with what `strsep` has left of the path, which is nothing. -/
theorem MountInv.mountKlog_null (h : MountInv c path) (hp : [] ∉ p.tail.splitOn slash)
    (hne : ¬ (p.head? = some slash ∧ strlen p = 1)) (hm : HasMount c.calls (tok p)) :
    c.vfs.mountKlog p = some none := by
  obtain ⟨j, hj, hpj⟩ := (h.entries (tok p)).mpr hm.hasEntry
  have hpj' : path j = path c.vfs.tree ++ toks (some p.tail) := by
    rw [h.tree.path_root, List.nil_append]
    exact hpj
  have hfile : (c.vfs.nodes j).file.isSome = true := by
    rw [h.files j hj, hpj]
    exact Option.isSome_iff_ne_none.mpr (lastFile_ne_none.mpr hm)
  obtain ⟨l, rest, hl, hlong, -, hrest⟩ := h.leaves hp
  have hle := hlong.2.2 _ (List.prefix_refl _) hm.hasEntry
  have hnil : rest = [] := by
    rw [hlong.1.eq_of_length_le hle.length_le] at hl
    exact List.append_right_eq_self.mp hl.symm
  rw [hnil, List.tail_nil, comps_eq_nil] at hrest
  unfold mountKlog
  rw [if_neg hne, strdup, mountRecursiveKlog_eq h.tree h.tree.root_mem hj hpj', if_pos hfile, hrest]

/-- The second of two mounts on `/a` is not refused: it replaces the file, and `klog` is given a null
    pointer to print. -/
theorem mount_twice : ∃ c : MountClient Bool, Run MountClient.Step .new [([slash, letterA], true)] c ∧
    HasMount c.calls (tok [slash, letterA]) ∧ ¬ Refused c.vfs [slash, letterA] (some false) ∧
    (c.vfs.mount [slash, letterA] (some false)).1 = true ∧ c.vfs.mountKlog [slash, letterA] = some none := by
  have hrun : Run (MountClient.Step (F := Bool)) .new [([slash, letterA], true)] _ :=
    .snoc ([slash, letterA], true) .nil ⟨rfl, rfl⟩
  refine ⟨_, hrun, ⟨_, List.mem_cons_self, rfl, rfl⟩, not_refused _ _ rfl (by decide), rfl, ?_⟩
  obtain ⟨path, h⟩ := MountInv.new.run hrun
  exact h.mountKlog_null (by decide) (by decide) ⟨_, List.mem_cons_self, rfl, rfl⟩

end Pros
