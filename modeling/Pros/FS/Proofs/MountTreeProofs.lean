import Pros.FS.MountTree
import Pros.FS.Proofs.MountTableProofs

/-!
# The tree of mounts stays well named

A call of `mount` puts in nodes for components that are not there yet and sets a file. What both keep, it keeps
(`mountRecursive_preserves`); so the shape of the tree is an invariant of all calls.
-/

namespace Pros

open VFS

variable {F : Type} {v v' : VFS F} {path : ℕ → List CString} {i : ℕ} {t : CString} {file : Option F}

/-! ## What a call keeps -/

/-- Tokens have no delimiters in them. -/
theorem slash_notMem_token {p p' : Option CString} (h : strsep p [slash] = (some t, p')) : slash ∉ t := by
  cases p with
  | none => cases h
  | some s =>
    simp only [strsep, Prod.mk.injEq, Option.some.injEq] at h
    rcases strsepOf_cases [slash] s with ⟨heq, htok⟩ | ⟨tok, c, r, -, htok, -, heq⟩
    · rw [heq] at h
      obtain ⟨rfl, -⟩ := h
      exact fun hmem => htok slash hmem (List.mem_singleton_self slash)
    · rw [heq] at h
      obtain ⟨rfl, -⟩ := h
      exact fun hmem => htok slash hmem (List.mem_singleton_self slash)

/-- What setting a file and putting in a node for a new component keep, mounting keeps. -/
theorem mountRecursive_preserves {I : VFS F → Prop}
    (hchild : ∀ v, I v → ∀ i < v.fresh, ∀ c ∈ (v.nodes i).children, c < v.fresh)
    (hset : ∀ v i file, I v → I (v.setFile i file))
    (hinsert : ∀ v i t, I v → i < v.fresh → t ≠ [] → slash ∉ t →
      (∀ c ∈ (v.nodes i).children, (v.nodes c).name ≠ t) → I (v.insert i t))
    (h : I v) (hi : i < v.fresh) (p : Option CString) (file : Option F) : I (v.mountRecursive p i file).2 := by
  induction hn : sepSize p using Nat.strong_induction_on generalizing v p i with
  | _ n ih =>
    rw [mountRecursive]
    split
    · exact hset v i file h
    · next t p' hsep =>
      by_cases ht : t = []
      · rw [if_pos (strcmp_eq_zero.mpr ht)]
        exact hset v i file h
      · rw [if_neg (strcmp_eq_zero.not.mpr ht)]
        have hmatch := @lastMatch_eq F v t (v.nodes i).children
        have hlt := hn ▸ sepSize_strsep_lt hsep
        split
        · next c hc =>
          rw [hc] at hmatch
          exact ih _ hlt h (hchild v h i hi c hmatch.1) p' rfl
        · next hnone =>
          rw [hnone] at hmatch
          exact ih _ hlt (hinsert v i t h hi ht (slash_notMem_token hsep) hmatch) (Nat.lt_succ_self _) p' rfl

/-- What else is set on the root makes no difference. -/
theorem mount_preserves {I : VFS F → Prop} (hroot : ∀ v root, I v → I { v with root := root })
    (htree : ∀ v, I v → v.tree < v.fresh)
    (hchild : ∀ v, I v → ∀ i < v.fresh, ∀ c ∈ (v.nodes i).children, c < v.fresh)
    (hset : ∀ v i file, I v → I (v.setFile i file))
    (hinsert : ∀ v i t, I v → i < v.fresh → t ≠ [] → slash ∉ t →
      (∀ c ∈ (v.nodes i).children, (v.nodes c).name ≠ t) → I (v.insert i t))
    (h : I v) (p : CString) (file : Option F) : I (v.mount p file).2 := by
  unfold VFS.mount
  split_ifs
  · exact h
  · exact hset _ _ _ (hroot v file h)
  · exact mountRecursive_preserves hchild hset hinsert h (htree v h) _ file

/-! ## The shape of the tree -/

/-- Children are behind their parents, with names that are components and differ. -/
structure VFS.Shape (v : VFS F) : Prop where
  tree_lt : v.tree < v.fresh
  child : ∀ i < v.fresh, ∀ c ∈ (v.nodes i).children, i < c ∧ c < v.fresh
  distinct : ∀ i < v.fresh, ((v.nodes i).children.map fun c => (v.nodes c).name).Nodup
  component : ∀ i < v.fresh, i ≠ v.tree → (v.nodes i).name ≠ [] ∧ slash ∉ (v.nodes i).name
  rootName : (v.nodes v.tree).name = VFS.rootName

theorem VFS.Shape.init : (VFS.init : VFS F).Shape where
  tree_lt := Nat.zero_lt_one
  child := fun _ _ _ hc => absurd hc List.not_mem_nil
  distinct := fun _ _ => List.nodup_nil
  component := fun _ hi hne => absurd (Nat.lt_one_iff.mp hi) hne
  rootName := rfl

theorem VFS.Shape.setFile (h : v.Shape) (i : ℕ) (file : Option F) : (v.setFile i file).Shape := by
  obtain ⟨h1, h2, h3, h4, h5⟩ := h
  constructor
  · exact h1
  · simp only [setFile_children]
    exact h2
  · simp only [setFile_children, setFile_name]
    exact h3
  · simp only [setFile_name]
    exact h4
  · rw [setFile_name]
    exact h5

/-- The nodes that were there before an insertion. -/
theorem insert_old (v : VFS F) (i : ℕ) (t : CString) {j : ℕ} (hj : j < v.fresh) :
    ((v.insert i t).nodes j).name = (v.nodes j).name ∧
      ((v.insert i t).nodes j).children =
        if j = i then v.fresh :: (v.nodes i).children else (v.nodes j).children := by
  have hne : j ≠ v.fresh := Nat.ne_of_lt hj
  unfold VFS.insert
  by_cases hji : j = i
  · subst hji
    simp [hne]
  · simp [hne, hji]

/-- The node that is new. -/
theorem insert_new (v : VFS F) (i : ℕ) (t : CString) : (v.insert i t).nodes v.fresh = ⟨t, none, []⟩ := by
  simp [VFS.insert]

theorem VFS.Shape.insert (h : v.Shape) (hi : i < v.fresh) (ht : t ≠ []) (hslash : slash ∉ t)
    (hnew : ∀ c ∈ (v.nodes i).children, (v.nodes c).name ≠ t) : (v.insert i t).Shape := by
  have hfresh : (v.insert i t).fresh = v.fresh + 1 := rfl
  have htree : (v.insert i t).tree = v.tree := rfl
  -- The names of children that were there before.
  have hnames : ∀ j < v.fresh, ((v.nodes j).children.map fun c => ((v.insert i t).nodes c).name) =
      (v.nodes j).children.map fun c => (v.nodes c).name := by
    intro j hj
    refine List.map_congr_left ?_
    intro c hc
    exact (insert_old v i t (h.child j hj c hc).2).1
  constructor
  · rw [hfresh, htree]
    exact Nat.lt_succ_of_lt h.tree_lt
  · intro j hj c hc
    rw [hfresh] at hj ⊢
    rcases Nat.lt_succ_iff_lt_or_eq.mp hj with hj | rfl
    · rw [(insert_old v i t hj).2] at hc
      split_ifs at hc with hji
      · subst hji
        rcases List.mem_cons.mp hc with rfl | hc
        · exact ⟨hj, Nat.lt_succ_self _⟩
        · exact (h.child j hj c hc).imp_right Nat.lt_succ_of_lt
      · exact (h.child j hj c hc).imp_right Nat.lt_succ_of_lt
    · rw [insert_new] at hc
      exact absurd hc List.not_mem_nil
  · intro j hj
    rw [hfresh] at hj
    rcases Nat.lt_succ_iff_lt_or_eq.mp hj with hj | rfl
    · rw [(insert_old v i t hj).2]
      split_ifs with hji
      · subst hji
        rw [List.map_cons, hnames j hj, insert_new, List.nodup_cons]
        refine ⟨?_, h.distinct j hj⟩
        intro hmem
        obtain ⟨c, hc, hname⟩ := List.mem_map.mp hmem
        exact hnew c hc hname
      · rw [hnames j hj]
        exact h.distinct j hj
    · rw [insert_new]
      exact List.nodup_nil
  · intro j hj hne
    rw [hfresh] at hj
    rcases Nat.lt_succ_iff_lt_or_eq.mp hj with hj | rfl
    · rw [(insert_old v i t hj).1]
      exact h.component j hj hne
    · rw [insert_new]
      exact ⟨ht, hslash⟩
  · rw [htree, (insert_old v i t h.tree_lt).1]
    exact h.rootName

theorem VFS.Shape.mount (h : v.Shape) (p : CString) (file : Option F) : (v.mount p file).2.Shape :=
  mount_preserves (fun _ _ ⟨h1, h2, h3, h4, h5⟩ => ⟨h1, h2, h3, h4, h5⟩) (fun _ h => h.tree_lt)
    (fun _ h i hi c hc => (h.child i hi c hc).2) (fun _ i file h => h.setFile i file)
    (fun _ _ _ h hi ht hslash hnew => h.insert hi ht hslash hnew) h p file

/-- Names do not change. -/
theorem VFS.Shape.name_mount (h : v.Shape) (p : CString) (file : Option F) (hi : i < v.fresh) :
    ((v.mount p file).2.nodes i).name = (v.nodes i).name := by
  let I (v' : VFS F) : Prop := v'.Shape ∧ i < v'.fresh ∧ (v'.nodes i).name = (v.nodes i).name
  suffices hI : I (v.mount p file).2 from hI.2.2
  refine mount_preserves ?_ (fun _ h => h.1.tree_lt) (fun _ h i hi c hc => (h.1.child i hi c hc).2) ?_ ?_
    ⟨h, hi, rfl⟩ p file
  · rintro v' root ⟨⟨h1, h2, h3, h4, h5⟩, hname⟩
    exact ⟨⟨h1, h2, h3, h4, h5⟩, hname⟩
  · rintro v' j file ⟨hshape, hi, hname⟩
    exact ⟨hshape.setFile j file, hi, by rw [setFile_name, hname]⟩
  · rintro v' j t ⟨hshape, hi, hname⟩ hj ht hslash hnew
    exact ⟨hshape.insert hj ht hslash hnew, Nat.lt_succ_of_lt hi, by rw [(insert_old v' j t hi).1, hname]⟩

/-! ## Runs -/

/-- What a call of `mount` does to the paths. -/
theorem mount_paths (h : v.Tree path) (p : CString) (file : Option F) :
    ∃ path', (v.mount p file).2.Tree path' ∧ (v.mount p file).2.tree = v.tree ∧
      (∀ l, (∃ j < (v.mount p file).2.fresh, path' j = l) ↔ (∃ j < v.fresh, path j = l) ∨ l <+: tok p) ∧
      ∀ j < v.fresh, j < (v.mount p file).2.fresh ∧ path' j = path j := by
  have hroot : ∀ ts, path v.tree ++ ts = ts := by
    intro ts
    rw [h.path_root, List.nil_append]
  have hmounts : ∀ {v' path'}, Mounts v path v.tree (tok p) file v' path' →
      v'.Tree path' ∧ v'.tree = v.tree ∧
        (∀ l, (∃ j < v'.fresh, path' j = l) ↔ (∃ j < v.fresh, path j = l) ∨ l <+: tok p) ∧
        ∀ j < v.fresh, j < v'.fresh ∧ path' j = path j := by
    intro v' path' hm
    refine ⟨hm.tree, hm.tree_eq, fun l => ?_, fun j hj => ⟨(hm.frame j hj).1, (hm.frame j hj).2.1⟩⟩
    rw [hm.nodes]
    refine or_congr_right ⟨?_, fun hl => ⟨l, hl, (hroot l).symm⟩⟩
    rintro ⟨l', hl', rfl⟩
    rwa [hroot]
  unfold VFS.mount
  split_ifs with hp hfile
  · refine ⟨path, h, rfl, fun l => ?_, fun j hj => ⟨hj, rfl⟩⟩
    rw [tok_root hp, List.prefix_nil]
    refine ⟨Or.inl, ?_⟩
    rintro (hl | rfl)
    · exact hl
    · exact ⟨v.tree, h.root_mem, h.path_root⟩
  · have hm := setFile_mounts h h.root_mem file file
    rw [← tok_root hp] at hm
    exact ⟨path, hmounts hm⟩
  · obtain ⟨path', hm⟩ := mountRecursive_mounts h h.root_mem (some (strdup p.tail)) file
    exact ⟨path', hmounts hm⟩

/-- The nodes are the prefixes of the paths in the calls. -/
structure VFS.TreeInv (v : VFS F) (ops : List (CString × Option F)) (path : ℕ → List CString) : Prop where
  tree : v.Tree path
  shape : v.Shape
  entries : ∀ l, (∃ j < v.fresh, path j = l) ↔ l = [] ∨ ∃ op ∈ ops, l <+: tok op.1

theorem VFS.TreeInv.init : (VFS.init : VFS F).TreeInv [] fun _ => [] where
  tree := MountInv.new.tree
  shape := .init
  entries := by
    intro l
    constructor
    · rintro ⟨j, -, rfl⟩
      exact Or.inl rfl
    · rintro (rfl | ⟨op, hop, -⟩)
      · exact ⟨0, Nat.zero_lt_one, rfl⟩
      · exact absurd hop List.not_mem_nil

variable {ops : List (CString × Option F)} {op : CString × Option F}

theorem VFS.TreeInv.step (h : v.TreeInv ops path) (hstep : v.Step op v') :
    ∃ path', v'.TreeInv (ops ++ [op]) path' ∧ ∀ j < v.fresh, j < v'.fresh ∧ path' j = path j := by
  obtain ⟨-, rfl⟩ := hstep
  obtain ⟨path', htree, -, hnodes, hkeep⟩ := mount_paths h.tree op.1 op.2
  refine ⟨path', ⟨htree, h.shape.mount op.1 op.2, fun l => ?_⟩, hkeep⟩
  rw [hnodes, h.entries, or_assoc]
  simp only [List.mem_append, List.mem_singleton, or_and_right, exists_or, exists_eq_left]

theorem VFS.TreeInv.run (hrun : Run VFS.Step VFS.init ops v) : ∃ path, v.TreeInv ops path := by
  induction hrun with
  | nil => exact ⟨_, .init⟩
  | snoc op _ hstep ih =>
    obtain ⟨path, h⟩ := ih
    obtain ⟨path', h', -⟩ := h.step hstep
    exact ⟨path', h'⟩

/-! ## The tree -/

theorem VFS.TreeInv.isNode_iff (h : v.TreeInv ops path) : v.IsNode i ↔ i < v.fresh := by
  constructor
  · rintro ⟨l, hl⟩
    exact ((entryAt_iff h.tree).mp hl).1
  · intro hi
    exact ⟨path i, (entryAt_iff h.tree).mpr ⟨hi, rfl⟩⟩

/-- Both scans end at the one child with the name, or find none. -/
theorem firstMatch_eq_lastMatch (h : v.TreeInv ops path) (hi : i < v.fresh) (t : CString) :
    v.firstMatch t (v.nodes i).children = v.lastMatch t (v.nodes i).children := by
  have hfirst := @firstMatch_eq F v t (v.nodes i).children
  have hlast := @lastMatch_eq F v t (v.nodes i).children
  cases hf : v.firstMatch t (v.nodes i).children with
  | none =>
    rw [hf] at hfirst
    cases hl : v.lastMatch t (v.nodes i).children with
    | none => rfl
    | some d =>
      rw [hl] at hlast
      exact absurd hlast.2 (hfirst d hlast.1)
  | some c =>
    rw [hf] at hfirst
    cases hl : v.lastMatch t (v.nodes i).children with
    | none =>
      rw [hl] at hlast
      exact absurd hfirst.2 (hlast c hfirst.1)
    | some d =>
      rw [hl] at hlast
      rw [h.tree.child_unique hi hfirst.1 hlast.1 (hfirst.2.trans hlast.2.symm)]

theorem VFS.TreeInv.wellNamed (h : v.TreeInv ops path) : v.WellNamed where
  distinct := fun i hi => h.shape.distinct i (h.isNode_iff.mp hi)
  component := fun i hi => h.shape.component i (h.isNode_iff.mp hi)
  scan := fun _ hi t => firstMatch_eq_lastMatch h (h.isNode_iff.mp hi) t

theorem VFS.TreeInv.keeps (h : v.TreeInv ops path) (hstep : v.Step op v') : v.Keeps v' := by
  intro l i hl
  obtain ⟨hi, rfl⟩ := (entryAt_iff h.tree).mp hl
  obtain ⟨path', h', hkeep⟩ := h.step hstep
  obtain ⟨hi', hpath⟩ := hkeep i hi
  refine ⟨fun l' => ?_, ?_⟩
  · rw [entryAt_iff h'.tree, hpath]
    exact ⟨fun h => h.2.symm, fun h => ⟨hi', h.symm⟩⟩
  · obtain ⟨-, rfl⟩ := hstep
    exact h.shape.name_mount op.1 op.2 hi

/-- In every tree that calls of `mount` lead to, children are told apart by their names, which are components; and
    a call leaves every node where it is. -/
theorem mount_tree (hrun : Run VFS.Step VFS.init ops v) :
    v.WellNamed ∧ ∀ op v', v.Step op v' → v.Keeps v' := by
  obtain ⟨path, h⟩ := VFS.TreeInv.run hrun
  exact ⟨h.wellNamed, fun op v' hstep => h.keeps hstep⟩

/-- The tree of `"/a/a"` has two nodes below the root. -/
theorem mount_tree_two : ∃ v : VFS Bool, Run VFS.Step VFS.init [([slash, letterA, slash, letterA], some true)] v ∧
    (∃ i j, EntryAt v [[letterA]] i ∧ EntryAt v [[letterA], [letterA]] j ∧ i ≠ v.tree ∧ j ≠ v.tree ∧ i ≠ j) ∧
    v.WellNamed ∧ ∀ op v', v.Step op v' → v.Keeps v' := by
  have hrun : Run (VFS.Step (F := Bool)) VFS.init [([slash, letterA, slash, letterA], some true)] _ :=
    .snoc ([slash, letterA, slash, letterA], some true) .nil ⟨rfl, rfl⟩
  refine ⟨_, hrun, ?_, mount_tree hrun⟩
  obtain ⟨path, h⟩ := VFS.TreeInv.run hrun
  obtain ⟨i, hi, hpath⟩ := (h.entries [[letterA]]).mpr (Or.inr ⟨_, List.mem_cons_self, by decide⟩)
  obtain ⟨j, hj, hpath'⟩ := (h.entries [[letterA], [letterA]]).mpr (Or.inr ⟨_, List.mem_cons_self, by decide⟩)
  -- Nodes at different paths are different.
  have hne : ∀ x y, path x ≠ path y → x ≠ y := fun x y h => h ∘ congrArg path
  refine ⟨i, j, (entryAt_iff h.tree).mpr ⟨hi, hpath⟩, (entryAt_iff h.tree).mpr ⟨hj, hpath'⟩,
    hne _ _ ?_, hne _ _ ?_, hne _ _ ?_⟩
  · rw [hpath, h.tree.path_root]
    exact List.cons_ne_nil _ _
  · rw [hpath', h.tree.path_root]
    exact List.cons_ne_nil _ _
  · rw [hpath, hpath']
    decide

end Pros
