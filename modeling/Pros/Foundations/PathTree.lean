import Mathlib.Logic.Function.Basic
import Mathlib.Data.Set.Function
import Mathlib.Data.List.Infix
import Mathlib.Data.List.Nodup

/-!
# Trees with labelled nodes in a store

A store of nodes, each with a label and a list of children, is a tree if every node has a path from the
root: the labels of the nodes on the way to it. Paths are unique, and the paths of a tree are closed
under prefixes. A node is added by putting it in front of the children of another.

`preorder` lists the nodes below a node, itself first, down to a depth. When that is enough these are the nodes
whose paths go on from its path (`mem_preorder`), each once (`nodup_preorder`).
-/

/-- `path` makes a tree of the nodes in `nodes`. -/
structure PathTree {ι L : Type} (nodes : Set ι) (children : ι → List ι) (label : ι → L) (root : ι)
    (path : ι → List L) : Prop where
  root_mem : root ∈ nodes
  path_root : path root = []
  path_inj : ∀ i ∈ nodes, ∀ j ∈ nodes, path i = path j → i = j
  child : ∀ i ∈ nodes, ∀ c ∈ children i, c ∈ nodes ∧ path c = path i ++ [label c]
  parent : ∀ c ∈ nodes, c ≠ root → ∃ i ∈ nodes, c ∈ children i

namespace PathTree

variable {ι L : Type} {nodes : Set ι} {children : ι → List ι} {label : ι → L} {root : ι}
  {path : ι → List L} {i j c : ι} {t : L}

/-- Children of a node are told apart by their labels. -/
theorem child_unique (h : PathTree nodes children label root path) (hi : i ∈ nodes)
    (hc : c ∈ children i) (hj : j ∈ children i) (hl : label c = label j) : c = j := by
  obtain ⟨hc1, hc2⟩ := h.child i hi c hc
  obtain ⟨hj1, hj2⟩ := h.child i hi j hj
  exact h.path_inj c hc1 j hj1 (by rw [hc2, hj2, hl])

/-- The node before the last step of a path. -/
theorem exists_parent (h : PathTree nodes children label root path) {l : List L} (hc : c ∈ nodes)
    (hp : path c = l ++ [t]) : ∃ i ∈ nodes, path i = l ∧ c ∈ children i ∧ label c = t := by
  have hne : c ≠ root := by
    rintro rfl
    rw [h.path_root] at hp
    exact absurd hp.symm (by simp)
  obtain ⟨i, hi, hci⟩ := h.parent c hc hne
  have hpath := (h.child i hi c hci).2
  rw [hp] at hpath
  obtain ⟨h1, h2⟩ := List.append_inj' hpath rfl
  exact ⟨i, hi, h1.symm, hci, (List.singleton_inj.mp h2).symm⟩

/-- Every prefix of a path is the path of a node. -/
theorem exists_prefix (h : PathTree nodes children label root path) {l l' : List L} (hc : c ∈ nodes)
    (hp : path c = l ++ l') : ∃ i ∈ nodes, path i = l := by
  induction l' using List.reverseRecOn generalizing c with
  | nil => exact ⟨c, hc, by rw [hp, List.append_nil]⟩
  | append_singleton l' t ih =>
    rw [← List.append_assoc] at hp
    obtain ⟨i, hi, hpi, -⟩ := h.exists_parent hc hp
    exact ih hi hpi

/-- A path that goes on from a node goes through one of its children. -/
theorem exists_child (h : PathTree nodes children label root path) {l : List L} (hi : i ∈ nodes)
    (hj : j ∈ nodes) (hp : path j = path i ++ t :: l) : ∃ c ∈ children i, label c = t := by
  rw [← List.singleton_append, ← List.append_assoc] at hp
  obtain ⟨c, hc, hpc⟩ := h.exists_prefix hj hp
  obtain ⟨i', hi', hpi, hci, hl⟩ := h.exists_parent hc hpc
  obtain rfl := h.path_inj i' hi' i hi hpi
  exact ⟨c, hci, hl⟩

/-- Adding a node with a new label. -/
theorem insert [DecidableEq ι] (h : PathTree nodes children label root path) {children' : ι → List ι}
    {label' : ι → L} (hi : i ∈ nodes) (hc : c ∉ nodes) (hnew : ∀ d ∈ children i, label d ≠ t)
    (hlabel : ∀ d ∈ nodes, label' d = label d) (hlabelc : label' c = t)
    (hchildren : ∀ d ∈ nodes, d ≠ i → children' d = children d)
    (hchildreni : children' i = c :: children i) (hchildrenc : children' c = []) :
    PathTree (insert c nodes) children' label' root (Function.update path c (path i ++ [t])) := by
  have hne : ∀ d ∈ nodes, d ≠ c := fun d hd heq => hc (heq ▸ hd)
  have hpath : ∀ d ∈ nodes, Function.update path c (path i ++ [t]) d = path d := fun d hd =>
    Function.update_of_ne (hne d hd) _ _
  -- No node had the new path.
  have hfresh : ∀ d ∈ nodes, path d ≠ path i ++ [t] := by
    intro d hd hp
    obtain ⟨e, he, hl⟩ := h.exists_child hi hd hp
    exact hnew e he hl
  constructor
  · exact Set.mem_insert_of_mem _ h.root_mem
  · rw [hpath root h.root_mem, h.path_root]
  · rintro a (rfl | ha) b (rfl | hb) heq
    · rfl
    · rw [Function.update_self, hpath b hb] at heq
      exact absurd heq.symm (hfresh b hb)
    · rw [Function.update_self, hpath a ha] at heq
      exact absurd heq (hfresh a ha)
    · rw [hpath a ha, hpath b hb] at heq
      exact h.path_inj a ha b hb heq
  · rintro a (rfl | ha) d hd
    · rw [hchildrenc] at hd
      cases hd
    · have hold : ∀ d ∈ children a, d ∈ Insert.insert c nodes ∧
          Function.update path c (path i ++ [t]) d =
            Function.update path c (path i ++ [t]) a ++ [label' d] := by
        intro d hd
        obtain ⟨h1, h2⟩ := h.child a ha d hd
        exact ⟨Set.mem_insert_of_mem _ h1, by rw [hpath d h1, hpath a ha, hlabel d h1, h2]⟩
      by_cases hai : a = i
      · subst hai
        rw [hchildreni] at hd
        rcases List.mem_cons.mp hd with rfl | hd
        · exact ⟨Set.mem_insert _ _, by rw [Function.update_self, hpath a ha, hlabelc]⟩
        · exact hold d hd
      · rw [hchildren a ha hai] at hd
        exact hold d hd
  · rintro a (rfl | ha) hroot
    · exact ⟨i, Set.mem_insert_of_mem _ hi, by rw [hchildreni]; exact List.mem_cons_self ..⟩
    · obtain ⟨p, hp, hap⟩ := h.parent a ha hroot
      refine ⟨p, Set.mem_insert_of_mem _ hp, ?_⟩
      by_cases hpi : p = i
      · subst hpi
        rw [hchildreni]
        exact List.mem_cons_of_mem _ hap
      · rw [hchildren p hp hpi]
        exact hap

/-! ## Preorder -/

/-- The nodes below `i` and itself, in preorder, on `depth` levels. -/
def preorder (children : ι → List ι) : (depth : ℕ) → (i : ι) → List ι
  | 0, _ => []
  | depth + 1, i => i :: (children i).flatMap (preorder children depth)

theorem prefix_of_mem_preorder (h : PathTree nodes children label root path) (hi : i ∈ nodes) {depth : ℕ}
    (hj : j ∈ preorder children depth i) : j ∈ nodes ∧ path i <+: path j := by
  induction depth generalizing i with
  | zero => exact absurd hj List.not_mem_nil
  | succ depth ih =>
    rcases List.mem_cons.mp hj with rfl | hj
    · exact ⟨hi, List.prefix_refl _⟩
    · obtain ⟨c, hc, hj⟩ := List.mem_flatMap.mp hj
      obtain ⟨hcn, hpc⟩ := h.child i hi c hc
      obtain ⟨hjn, hpj⟩ := ih hcn hj
      rw [hpc] at hpj
      exact ⟨hjn, (List.prefix_append _ _).trans hpj⟩

theorem mem_preorder (h : PathTree nodes children label root path) (hi : i ∈ nodes) {depth : ℕ}
    (hdepth : ∀ j ∈ nodes, path i <+: path j → (path j).length < (path i).length + depth) :
    j ∈ preorder children depth i ↔ j ∈ nodes ∧ path i <+: path j := by
  refine ⟨h.prefix_of_mem_preorder hi, ?_⟩
  rintro ⟨hj, l, hl⟩
  induction depth generalizing i l with
  | zero => exact absurd (hdepth i hi (List.prefix_refl _)) (lt_irrefl _)
  | succ depth ih =>
    cases l with
    | nil =>
      rw [List.append_nil] at hl
      rw [h.path_inj i hi j hj hl]
      exact List.mem_cons_self
    | cons t l =>
      obtain ⟨c, hc, rfl⟩ := h.exists_child hi hj hl.symm
      obtain ⟨hcn, hpc⟩ := h.child i hi c hc
      refine List.mem_cons_of_mem _ (List.mem_flatMap.mpr ⟨c, hc, ?_⟩)
      refine ih hcn ?_ l (by rw [hpc, List.append_assoc, List.singleton_append, hl])
      intro k hk hpk
      rw [hpc] at hpk ⊢
      have := hdepth k hk ((List.prefix_append _ _).trans hpk)
      rw [List.length_append, List.length_singleton]
      omega

theorem nodup_preorder (h : PathTree nodes children label root path)
    (hdistinct : ∀ i ∈ nodes, (children i).Nodup) (hi : i ∈ nodes) (depth : ℕ) :
    (preorder children depth i).Nodup := by
  induction depth generalizing i with
  | zero => exact List.nodup_nil
  | succ depth ih =>
    have hchild := h.child i hi
    refine List.nodup_cons.mpr ⟨?_, List.nodup_flatMap.mpr ⟨fun c hc => ih (hchild c hc).1, ?_⟩⟩
    · intro hmem
      obtain ⟨c, hc, hmem⟩ := List.mem_flatMap.mp hmem
      have hle := (h.prefix_of_mem_preorder (hchild c hc).1 hmem).2.length_le
      rw [(hchild c hc).2, List.length_append, List.length_singleton] at hle
      omega
    · -- What is below two children would continue the paths of both.
      refine (hdistinct i hi).imp_of_mem ?_
      intro c d hc hd hne j hjc hjd
      obtain ⟨-, hpc⟩ := h.prefix_of_mem_preorder (hchild c hc).1 hjc
      obtain ⟨-, hpd⟩ := h.prefix_of_mem_preorder (hchild d hd).1 hjd
      have hlen : (path c).length = (path d).length := by
        rw [(hchild c hc).2, (hchild d hd).2, List.length_append, List.length_append, List.length_singleton,
          List.length_singleton]
      have heq : path c = path d :=
        (List.prefix_of_prefix_length_le hpc hpd hlen.le).eq_of_length hlen
      exact hne (h.path_inj c (hchild c hc).1 d (hchild d hd).1 heq)

end PathTree
