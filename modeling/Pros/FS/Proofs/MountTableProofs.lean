import Pros.FS.Proofs.VFSTreeProofs

/-!
# The mount table is refined by the file system

The nodes of the tree are the entries of the table, and each holds the file that was mounted last. Every
call of `mount` keeps this (`MountInv.step`), and a lookup that goes down such a tree stops at the longest
prefix with an entry.
-/

namespace Pros

open VFS

variable {F : Type} {v v' : VFS F} {path path' : ℕ → List CString} {c c' : MountClient F}
  {calls : List (CString × F × Bool)} {l : List CString}

/-! ## Entries -/

theorem entryAt_iff (h : v.Tree path) {i : ℕ} : EntryAt v l i ↔ i < v.fresh ∧ path i = l := by
  constructor
  · intro he
    induction he with
    | root => exact ⟨h.root_mem, h.path_root⟩
    | child he hc ih =>
      obtain ⟨hlt, hpath⟩ := h.child _ ih.1 _ hc
      exact ⟨hlt, by rw [hpath, ih.2]⟩
  · rintro ⟨hi, hp⟩
    induction l using List.reverseRecOn generalizing i with
    | nil =>
      obtain rfl := h.path_inj i hi _ h.root_mem (hp.trans h.path_root.symm)
      exact .root
    | append_singleton l t ih =>
      obtain ⟨j, hj, hpj, hij, rfl⟩ := h.exists_parent hi hp
      exact .child (ih hj hpj) hij

theorem hasEntry_cons {x : CString × F × Bool} :
    HasEntry (x :: calls) l ↔ HasEntry calls l ∨ l <+: tok x.1 := by
  unfold HasEntry
  rw [List.exists_mem_cons_iff, or_assoc]
  exact or_congr_right or_comm

theorem lastFile_eq_none (h : ¬ HasEntry calls l) : lastFile calls l = none := by
  induction calls with
  | nil => rfl
  | cons x calls ih =>
    rw [hasEntry_cons, not_or] at h
    unfold lastFile
    rw [if_neg, ih h.1]
    rintro ⟨-, rfl⟩
    exact h.2 (List.prefix_refl _)

theorem tok_root {p : CString} (hp : p.head? = some slash ∧ strlen p = 1) : tok p = [] := by
  obtain ⟨c, rfl⟩ := List.length_eq_one_iff.mp hp.2
  rfl

/-! ## Lookups -/

/-- The special case for `/` is what the recursion gives. -/
theorem getMount_eq (v : VFS F) (q : CString) :
    v.getMount q = (v.getMountRecursive (some q.tail) v.tree).1 := by
  unfold getMount
  by_cases hq : q.head? = some slash ∧ strlen q = 1
  · rw [if_pos hq]
    obtain ⟨c, rfl⟩ := List.length_eq_one_iff.mp hq.2
    rw [getMountRecursive]
    rfl
  · rw [if_neg hq]
    rfl

theorem getMountAdvance_eq (v : VFS F) (q : CString) : (v.getMountAdvance q).1 = v.getMount q := by
  unfold getMountAdvance
  by_cases hq : q.head? = some slash ∧ strlen q = 1
  · rw [if_pos hq, getMount, if_pos hq]
  · rw [if_neg hq, getMount_eq]

/-! ## The invariant -/

/-- The nodes are the entries, and hold the files mounted last. -/
structure MountInv (c : MountClient F) (path : ℕ → List CString) : Prop where
  tree : c.vfs.Tree path
  entries : ∀ l, (∃ j < c.vfs.fresh, path j = l) ↔ HasEntry c.calls l
  files : ∀ j < c.vfs.fresh, (c.vfs.nodes j).file = lastFile c.calls (path j)

theorem MountInv.new : MountInv (F := F) .new fun _ => [] where
  tree := by
    constructor
    · exact Nat.zero_lt_one
    · rfl
    · intro i hi j hj _
      exact (Nat.lt_one_iff.mp hi).trans (Nat.lt_one_iff.mp hj).symm
    · intro i _ d hd
      cases hd
    · intro d hd hne
      exact absurd (Nat.lt_one_iff.mp hd) hne
  entries := by
    intro l
    constructor
    · rintro ⟨j, hj, rfl⟩
      exact Or.inl rfl
    · rintro (rfl | ⟨x, hx, hl⟩)
      · exact ⟨0, Nat.zero_lt_one, rfl⟩
      · cases hx
  files := fun _ _ => rfl

/-- A successful call. -/
theorem MountInv.of_mounts (h : MountInv c path) {p : CString} {f : F}
    (hm : Mounts c.vfs path c.vfs.tree (tok p) (some f) v' path') :
    MountInv ⟨v', (p, f, true) :: c.calls⟩ path' := by
  have hroot : ∀ ts, path c.vfs.tree ++ ts = ts := by
    intro ts
    rw [h.tree.path_root, List.nil_append]
  obtain ⟨htree, -, hnodes, hfile, hframe, hfresh⟩ := hm
  rw [hroot] at hfile hfresh
  constructor
  · exact htree
  · intro l
    simp only
    rw [hnodes, h.entries, hasEntry_cons]
    constructor
    · rintro (hl | ⟨l', hl', rfl⟩)
      · exact Or.inl hl
      · exact Or.inr (by rw [hroot]; exact hl')
    · rintro (hl | hl)
      · exact Or.inl hl
      · exact Or.inr ⟨l, hl, (hroot l).symm⟩
  · intro j hj
    unfold lastFile
    by_cases hpj : path' j = tok p
    · rw [hfile j hj hpj, if_pos ⟨rfl, hpj.symm⟩]
    · rw [if_neg fun hok => hpj hok.2.symm]
      by_cases hold : j < c.vfs.fresh
      · obtain ⟨-, hpath, hkeep⟩ := hframe j hold
        rw [hpath] at hpj ⊢
        rw [hkeep (by rwa [hroot]), h.files j hold]
      · rw [hfresh j hj (Nat.le_of_not_lt hold) hpj, lastFile_eq_none]
        -- An older node with the path would be this one.
        intro hentry
        obtain ⟨i, hi, hpi⟩ := (h.entries _).mpr hentry
        obtain ⟨hi', hpath, -⟩ := hframe i hi
        have hij := htree.path_inj i hi' j hj (hpath.trans hpi)
        exact hold (hij ▸ hi)

/-- A call on `/` when there is a file already. -/
theorem MountInv.of_refused (h : MountInv c path) {p : CString} {f : F} (hp : tok p = []) :
    MountInv ⟨c.vfs, (p, f, false) :: c.calls⟩ path := by
  refine ⟨h.tree, fun l => ?_, fun j hj => ?_⟩
  · rw [h.entries, hasEntry_cons, hp, List.prefix_nil]
    constructor
    · exact Or.inl
    · rintro (hl | hl)
      · exact hl
      · exact Or.inl hl
  · rw [h.files j hj, lastFile, if_neg (by simp)]

/-- The entries that were there stay where they are, and all but one keep their files. -/
theorem MountInv.mount (h : MountInv c path) (p : CString) (f : F) :
    ∃ path', MountInv ⟨(c.vfs.mount p (some f)).2,
        (p, f, (c.vfs.mount p (some f)).1) :: c.calls⟩ path' ∧
      ∀ j < c.vfs.fresh, j < (c.vfs.mount p (some f)).2.fresh ∧ path' j = path j ∧
        (path j ≠ tok p → ((c.vfs.mount p (some f)).2.nodes j).file = (c.vfs.nodes j).file) := by
  have hroot : path c.vfs.tree ++ tok p = tok p := by rw [h.tree.path_root, List.nil_append]
  unfold VFS.mount
  by_cases hp : p.head? = some slash ∧ strlen p = 1
  · rw [if_pos hp]
    by_cases hfile : (c.vfs.nodes c.vfs.tree).file.isSome
    · rw [if_pos hfile]
      exact ⟨path, h.of_refused (tok_root hp), fun j hj => ⟨hj, rfl, fun _ => rfl⟩⟩
    · rw [if_neg hfile]
      have hm := setFile_mounts h.tree h.tree.root_mem (some f) (some f)
      rw [← tok_root hp] at hm
      exact ⟨path, h.of_mounts hm, hroot ▸ hm.frame⟩
  · rw [if_neg hp]
    obtain ⟨path', hm⟩ := mountRecursive_mounts h.tree h.tree.root_mem (some (strdup p.tail)) (some f)
    exact ⟨path', h.of_mounts hm, hroot ▸ hm.frame⟩

theorem MountInv.step (h : MountInv c path) {op : CString × F} (hstep : c.Step op c') :
    ∃ path', MountInv c' path' := by
  obtain ⟨-, rfl⟩ := hstep
  obtain ⟨path', h', -⟩ := h.mount op.1 op.2
  exact ⟨path', h'⟩

theorem MountInv.run (h : MountInv c path) {ops : List (CString × F)}
    (hrun : Run MountClient.Step c ops c') : ∃ path', MountInv c' path' := by
  refine hrun.invariant (I := fun c => ∃ path, MountInv c path) ⟨path, h⟩ ?_
  rintro c op c' ⟨path, h⟩ hstep
  exact h.step hstep

/-! ## What a path is resolved to -/

theorem MountInv.resolves (h : MountInv c path) (q : CString) :
    ∃ l, LongestEntry c.calls (tok q) l ∧ ResolvesTo c.vfs q l ∧
      (c.vfs.nodes (c.vfs.getMount q)).file = lastFile c.calls l := by
  obtain ⟨hlt, l, hl, hpath, hmax⟩ :=
    getMountRecursive_descends h.tree h.tree.root_mem (some q.tail)
  rw [← getMount_eq] at hlt hpath
  simp only [h.tree.path_root, List.nil_append] at hpath hmax
  refine ⟨l, ⟨hl, (h.entries l).mp ⟨_, hlt, hpath⟩, ?_⟩, ⟨?_, ?_, ?_⟩, ?_⟩
  · intro l' hl' hentry
    exact hmax l' hl' ((h.entries l').mpr hentry)
  · exact (entryAt_iff h.tree).mpr ⟨hlt, hpath⟩
  · intro i hi
    obtain ⟨hi', hpi⟩ := (entryAt_iff h.tree).mp hi
    exact h.tree.path_inj i hi' _ hlt (hpi.trans hpath.symm)
  · exact getMountAdvance_eq c.vfs q
  · rw [h.files _ hlt, hpath]

/-- What resolving a path without empty components leaves of it: one component more is taken off than
    there are entries for. -/
theorem MountInv.leaves (h : MountInv c path) {q : CString} (hq : [] ∉ q.tail.splitOn slash) :
    ∃ l rest, tok q = l ++ rest ∧ LongestEntry c.calls (tok q) l ∧ EntryAt c.vfs l (c.vfs.getMount q) ∧
      comps (c.vfs.getMountRecursive (some q.tail) c.vfs.tree).2 = rest.tail := by
  have hcomps : [] ∉ comps (some q.tail) := hq
  have htok : tok q = comps (some q.tail) := toks_of_notMem hcomps
  obtain ⟨l, rest, hl, hpath, hrest⟩ := getMountRecursive_rest h.tree h.tree.root_mem hcomps
  rw [← getMount_eq, h.tree.path_root, List.nil_append] at hpath
  obtain ⟨l', hlong, hres, -⟩ := h.resolves q
  have hpath' := ((entryAt_iff h.tree).mp hres.entryAt).2
  obtain rfl := hpath'.symm.trans hpath
  exact ⟨l', rest, htok.trans hl, hlong, hres.entryAt, hrest⟩

/-- A path with an entry of its own is resolved to it. -/
theorem MountInv.file_of_hasEntry (h : MountInv c path) {q : CString} (hq : HasEntry c.calls (tok q)) :
    (c.vfs.nodes (c.vfs.getMount q)).file = lastFile c.calls (tok q) := by
  obtain ⟨l, ⟨hl, -, hmax⟩, -, hfile⟩ := h.resolves q
  have hle := hmax _ (List.prefix_refl _) hq
  rw [hfile, hl.eq_of_length_le hle.length_le]

/-- Calls for other component lists do not matter. -/
theorem lastFile_run {ops : List (CString × F)} (hrun : Run MountClient.Step c ops c')
    (hops : ∀ op ∈ ops, tok op.1 ≠ l) :
    lastFile c'.calls l = lastFile c.calls l ∧ (HasEntry c.calls l → HasEntry c'.calls l) := by
  induction hrun with
  | nil => exact ⟨rfl, id⟩
  | snoc op hrun hstep ih =>
    obtain ⟨hfile, hentry⟩ := ih fun op hop => hops op (List.mem_append_left _ hop)
    have hne := hops op (List.mem_append_right _ (List.mem_singleton_self op))
    obtain ⟨-, rfl⟩ := hstep
    constructor
    · rw [lastFile, if_neg fun h => hne h.2, hfile]
    · intro h
      exact hasEntry_cons.mpr (Or.inl (hentry h))

/-- The mount table. After any sequence of mounts, a path is resolved to the longest prefix with an
    entry, which has the file of the last successful call for it; and what a call mounted stays there,
    for every spelling, until there is a call for the same components. -/
theorem mount_table {ops : List (CString × F)} (hrun : Run MountClient.Step .new ops c) :
    (∀ q : CString, q.head? = some slash → ∃ l, LongestEntry c.calls (tok q) l ∧ ResolvesTo c.vfs q l ∧
      (c.vfs.nodes (c.vfs.getMount q)).file = lastFile c.calls l) ∧
    ∀ (p : CString) (f : F) (c1 : MountClient F), c.Step (p, f) c1 → (c.vfs.mount p (some f)).1 = true →
      ∀ ops' c', Run MountClient.Step c1 ops' c' → (∀ op ∈ ops', tok op.1 ≠ tok p) →
        ∀ q : CString, q.head? = some slash → tok q = tok p →
          (c'.vfs.nodes (c'.vfs.getMount q)).file = some f := by
  obtain ⟨path, h⟩ := MountInv.new.run hrun
  constructor
  · intro q _
    exact h.resolves q
  · intro p f c1 hstep hok ops' c' hrun' hops q _ hq
    obtain ⟨path1, h1⟩ := h.step hstep
    obtain ⟨path', h'⟩ := h1.run hrun'
    obtain ⟨-, rfl⟩ := hstep
    obtain ⟨hfile, hentry⟩ := lastFile_run hrun' hops
    have hfirst := hentry (hasEntry_cons.mpr (Or.inr (List.prefix_refl _)))
    rw [h'.file_of_hasEntry (hq ▸ hfirst), hq, hfile, lastFile, if_pos ⟨hok, rfl⟩]

/-- `'a'`. -/
def letterA : CChar := ⟨0x61, by decide⟩

theorem mount_table_three : ∃ c c1 c' : MountClient Bool,
    Run MountClient.Step .new [([slash], true)] c ∧ c.Step ([slash, letterA], false) c1 ∧
    Run MountClient.Step c1 [([slash, slash], true)] c' ∧
    (c'.vfs.nodes (c'.vfs.getMount [slash, letterA, slash])).file = some false := by
  have hrun : Run (MountClient.Step (F := Bool)) .new [([slash], true)] _ :=
    .snoc ([slash], true) .nil ⟨rfl, rfl⟩
  refine ⟨_, _, _, hrun, ⟨rfl, rfl⟩, .snoc ([slash, slash], true) .nil ⟨rfl, rfl⟩, ?_⟩
  exact (mount_table hrun).2 [slash, letterA] false _ ⟨rfl, rfl⟩ rfl [([slash, slash], true)] _
    (.snoc _ .nil ⟨rfl, rfl⟩) (by simp; decide) [slash, letterA, slash] rfl (by decide)

/-- Mounts at `/` and `/a` succeed. -/
theorem nested_mounts : ∃ c : MountClient Bool,
    Run MountClient.Step .new [([slash], true), ([slash, letterA], false)] c ∧
    c.calls = [([slash, letterA], false, true), ([slash], true, true)] :=
  ⟨_, .snoc ([slash, letterA], false) (.snoc ([slash], true) .nil ⟨rfl, rfl⟩) ⟨rfl, rfl⟩, rfl⟩

/-- Below `/a` they leave `/a` as the longest entry. -/
theorem LongestEntry.nested {ts : List CString}
    (h : LongestEntry [([slash, letterA], false, true), ([slash], true, true)] ts l)
    (hts : [[letterA]] <+: ts) : l = [[letterA]] := by
  have hle := h.2.2 [[letterA]] hts (Or.inr ⟨_, List.mem_cons_self, by decide⟩)
  rcases h.2.1 with rfl | ⟨x, hx, hl⟩
  · exact absurd hle (by decide)
  · rcases List.mem_cons.mp hx with rfl | hx
    · exact (hle.eq_of_length_le hl.length_le).symm
    · obtain rfl := List.mem_singleton.mp hx
      exact absurd (hle.trans hl) (by decide)

end Pros
