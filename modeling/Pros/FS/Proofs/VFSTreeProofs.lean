import Pros.FS.MountTable
import Pros.Lib.Proofs.TokenProofs
import Pros.Foundations.PathTree
import Mathlib.Data.List.TakeWhile

/-!
# The tree behind the mount table

Both recursions of the file system consume a path component by component and go down the tree. They are
followed by induction on what `strsep` has left of the path.
-/

namespace Pros

open VFS

/-! ## Strings -/

/-- The components that are left of a path. -/
def toks : Option CString → List CString
  | none => []
  | some s => (s.splitOn slash).takeWhile (· ≠ [])

theorem splitOn_eq (s : CString) : s.splitOn slash =
    (strsepOf [slash] s).1 :: ((strsepOf [slash] s).2.map fun r => r.splitOn slash).getD [] := by
  simp only [← splitOnP_singleton]
  exact splitOnP_strsepOf [slash] s

/-- `strsep` takes the first component off. -/
theorem toks_strsep {path path' : Option CString} {t : CString}
    (h : strsep path [slash] = (some t, path')) :
    toks path = if t = [] then [] else t :: toks path' := by
  cases path with
  | none => cases h
  | some s =>
    simp only [strsep, Prod.mk.injEq, Option.some.injEq] at h
    rw [toks, splitOn_eq, h.1, h.2]
    by_cases ht : t = []
    · simp [ht]
    · cases path' <;> simp [ht, toks]

theorem toks_strsep_none {path path' : Option CString} (h : strsep path [slash] = (none, path')) :
    toks path = [] := by
  cases path with
  | none => rfl
  | some s => cases h

/-- All the components of a path, empty ones included. -/
def comps : Option CString → List CString
  | none => []
  | some s => s.splitOn slash

theorem comps_strsep {path path' : Option CString} {t : CString}
    (h : strsep path [slash] = (some t, path')) : comps path = t :: comps path' := by
  cases path with
  | none => cases h
  | some s =>
    simp only [strsep, Prod.mk.injEq, Option.some.injEq] at h
    rw [comps, splitOn_eq, h.1, h.2]
    cases path' <;> rfl

theorem strsep_none {path path' : Option CString} (h : strsep path [slash] = (none, path')) :
    path = none ∧ path' = none := by
  cases path with
  | none => exact ⟨rfl, (Prod.mk.inj h).2.symm⟩
  | some s => cases h

theorem comps_eq_nil {path : Option CString} : comps path = [] ↔ path = none := by
  cases path with
  | none => exact iff_of_true rfl rfl
  | some s =>
    rw [comps, splitOn_eq]
    exact iff_of_false (List.cons_ne_nil _ _) (Option.some_ne_none _)

/-- Without empty components none are cut off. -/
theorem toks_of_notMem {path : Option CString} (h : [] ∉ comps path) : toks path = comps path := by
  cases path with
  | none => rfl
  | some s =>
    refine List.takeWhile_eq_self_iff.mpr ?_
    intro t ht
    rw [decide_eq_true_eq]
    rintro rfl
    exact h ht

/-! ## The tree -/

variable {F : Type} {v v' : VFS F} {path path' : ℕ → List CString} {i j : ℕ} {t : CString}
  {file : Option F}

/-- The nodes allocated so far are a tree. -/
abbrev VFS.Tree (v : VFS F) (path : ℕ → List CString) : Prop :=
  PathTree { i | i < v.fresh } (fun i => (v.nodes i).children) (fun i => (v.nodes i).name) v.tree path

theorem lastMatch_eq (t : CString) (children : List ℕ) :
    match v.lastMatch t children with
    | some c => c ∈ children ∧ (v.nodes c).name = t
    | none => ∀ c ∈ children, (v.nodes c).name ≠ t := by
  unfold lastMatch
  induction children using List.reverseRecOn with
  | nil => simp
  | append_singleton children c ih =>
    rw [List.foldl_append, List.foldl_cons, List.foldl_nil]
    by_cases hc : (v.nodes c).name = t
    · rw [if_pos (strcmp_eq_zero.mpr hc)]
      exact ⟨by simp, hc⟩
    · rw [if_neg (strcmp_eq_zero.not.mpr hc)]
      split at ih
      · exact ⟨List.mem_append_left _ ih.1, ih.2⟩
      · intro d hd
        rcases List.mem_append.mp hd with hd | hd
        · exact ih d hd
        · obtain rfl := List.mem_singleton.mp hd
          exact hc

theorem firstMatch_eq (t : CString) (children : List ℕ) :
    match v.firstMatch t children with
    | some c => c ∈ children ∧ (v.nodes c).name = t
    | none => ∀ c ∈ children, (v.nodes c).name ≠ t := by
  unfold firstMatch
  cases hfind : children.find? fun child => decide (strcmp (v.nodes child).name t = 0) with
  | some c =>
    have hname := List.find?_some hfind
    exact ⟨List.mem_of_find?_eq_some hfind, strcmp_eq_zero.mp (of_decide_eq_true hname)⟩
  | none =>
    intro c hc hname
    have hnone := List.find?_eq_none.mp hfind c hc
    exact hnone (decide_eq_true (strcmp_eq_zero.mpr hname))

/-- The lookup stops at the longest prefix that is there. -/
structure Descends (v : VFS F) (path : ℕ → List CString) (i : ℕ) (ts : List CString) (r : ℕ) : Prop where
  lt : r < v.fresh
  stops : ∃ l, l <+: ts ∧ path r = path i ++ l ∧
    ∀ l', l' <+: ts → (∃ j < v.fresh, path j = path i ++ l') → l' <+: l

theorem descends_self (hi : i < v.fresh) {ts : List CString}
    (h : ∀ u us, ts = u :: us → ∀ j < v.fresh, ∀ l, path j ≠ path i ++ u :: l) :
    Descends v path i ts i := by
  refine ⟨hi, [], List.nil_prefix, by rw [List.append_nil], ?_⟩
  rintro l' hl' ⟨j, hj, hpj⟩
  cases l' with
  | nil => exact List.nil_prefix
  | cons u l =>
    obtain ⟨us, hus⟩ := hl'
    exact absurd hpj (h u _ hus.symm j hj l)

theorem getMountRecursive_descends (h : v.Tree path) (hi : i < v.fresh) (p : Option CString) :
    Descends v path i (toks p) (v.getMountRecursive p i).1 := by
  induction hn : sepSize p using Nat.strong_induction_on generalizing p i with
  | _ n ih =>
    rw [getMountRecursive]
    split
    · next p' hsep =>
      rw [toks_strsep_none hsep]
      exact descends_self hi fun u us hu => by cases hu
    · next t p' hsep =>
      rw [toks_strsep hsep]
      by_cases ht : t = []
      · rw [if_pos (strcmp_eq_zero.mpr ht), if_pos ht]
        exact descends_self hi fun u us hu => by cases hu
      · rw [if_neg (strcmp_eq_zero.not.mpr ht), if_neg ht]
        have hmatch := @firstMatch_eq F v t (v.nodes i).children
        split
        · next c hc =>
          rw [hc] at hmatch
          obtain ⟨hclt, hpc⟩ := h.child i hi c hmatch.1
          obtain ⟨hlt, l, hl, hpath, hmax⟩ :=
            ih _ (hn ▸ sepSize_strsep_lt hsep) hclt p' rfl
          rw [hpc, hmatch.2, List.append_assoc, List.singleton_append] at hpath
          refine ⟨hlt, t :: l, List.cons_prefix_cons.mpr ⟨rfl, hl⟩, hpath, ?_⟩
          rintro l' hl' ⟨j, hj, hpj⟩
          cases l' with
          | nil => exact List.nil_prefix
          | cons u l' =>
            obtain ⟨rfl, htail⟩ := List.cons_prefix_cons.mp hl'
            refine List.cons_prefix_cons.mpr ⟨rfl, hmax l' htail ⟨j, hj, ?_⟩⟩
            rw [hpc, hmatch.2, List.append_assoc, List.singleton_append]
            exact hpj
        · next hnone =>
          rw [hnone] at hmatch
          refine descends_self hi ?_
          rintro u us hu j hj l hpj
          obtain ⟨rfl, -⟩ := List.cons.inj hu
          obtain ⟨c, hc, hname⟩ := h.exists_child hi hj hpj
          exact hmatch c hc hname

/-- What the lookup leaves of a path without empty components: it takes one component more off than it
    finds entries for, unless there is none. -/
theorem getMountRecursive_rest (h : v.Tree path) (hi : i < v.fresh) {p : Option CString}
    (hp : [] ∉ comps p) : ∃ l rest, comps p = l ++ rest ∧
      path (v.getMountRecursive p i).1 = path i ++ l ∧
      comps (v.getMountRecursive p i).2 = rest.tail := by
  induction hn : sepSize p using Nat.strong_induction_on generalizing p i with
  | _ n ih =>
    rw [getMountRecursive]
    split
    · next p' hsep =>
      obtain ⟨rfl, rfl⟩ := strsep_none hsep
      exact ⟨[], [], rfl, (List.append_nil _).symm, rfl⟩
    · next t p' hsep =>
      rw [comps_strsep hsep, List.mem_cons, not_or] at hp
      have ht : strcmp t [] ≠ 0 := fun h0 => hp.1 (strcmp_eq_zero.mp h0).symm
      rw [if_neg ht, comps_strsep hsep]
      have hmatch := @firstMatch_eq F v t (v.nodes i).children
      split
      · next c hc =>
        rw [hc] at hmatch
        obtain ⟨hclt, hpc⟩ := h.child i hi c hmatch.1
        obtain ⟨l, rest, hl, hpath, hrest⟩ := ih _ (hn ▸ sepSize_strsep_lt hsep) hclt hp.2 rfl
        rw [hpc, hmatch.2, List.append_assoc, List.singleton_append] at hpath
        exact ⟨t :: l, rest, by rw [hl, List.cons_append], hpath, hrest⟩
      · exact ⟨[], t :: comps p', rfl, (List.append_nil _).symm, rfl⟩

/-- On a path that has an entry, a mount goes where the lookup goes, and reports what that leaves of the
    path. -/
theorem mountRecursiveKlog_eq (h : v.Tree path) (hi : i < v.fresh) {p : Option CString}
    (hj : j < v.fresh) (hpj : path j = path i ++ toks p) : v.mountRecursiveKlog p i =
      if (v.nodes j).file.isSome then some (v.getMountRecursive p i).2 else none := by
  induction hn : sepSize p using Nat.strong_induction_on generalizing p i with
  | _ n ih =>
    rw [mountRecursiveKlog, getMountRecursive]
    split
    · next p' hsep =>
      rw [toks_strsep_none hsep, List.append_nil] at hpj
      rw [h.path_inj j hj i hi hpj]
    · next t p' hsep =>
      rw [toks_strsep hsep] at hpj
      by_cases ht : t = []
      · rw [if_pos ht, List.append_nil] at hpj
        rw [if_pos (strcmp_eq_zero.mpr ht), if_pos (strcmp_eq_zero.mpr ht), h.path_inj j hj i hi hpj]
      · rw [if_neg ht] at hpj
        rw [if_neg (strcmp_eq_zero.not.mpr ht), if_neg (strcmp_eq_zero.not.mpr ht)]
        have hlast := @lastMatch_eq F v t (v.nodes i).children
        have hfirst := @firstMatch_eq F v t (v.nodes i).children
        obtain ⟨c, hc, hname⟩ := h.exists_child hi hj hpj
        cases hd : v.lastMatch t (v.nodes i).children with
        | none =>
          rw [hd] at hlast
          exact absurd hname (hlast c hc)
        | some d =>
          rw [hd] at hlast
          cases he : v.firstMatch t (v.nodes i).children with
          | none =>
            rw [he] at hfirst
            exact absurd hname (hfirst c hc)
          | some e =>
            rw [he] at hfirst
            obtain rfl := h.child_unique hi hlast.1 hfirst.1 (hlast.2.trans hfirst.2.symm)
            obtain ⟨hdlt, hpd⟩ := h.child i hi d hlast.1
            refine ih _ (hn ▸ sepSize_strsep_lt hsep) hdlt ?_ rfl
            rw [hpj, hpd, hlast.2, List.append_assoc, List.singleton_append]

/-! ## Mounting -/

@[simp]
theorem setFile_children (v : VFS F) (i j : ℕ) (file : Option F) :
    ((v.setFile i file).nodes j).children = (v.nodes j).children := by
  unfold VFS.setFile
  by_cases hij : j = i
  · subst hij
    simp
  · simp [hij]

@[simp]
theorem setFile_name (v : VFS F) (i j : ℕ) (file : Option F) :
    ((v.setFile i file).nodes j).name = (v.nodes j).name := by
  unfold VFS.setFile
  by_cases hij : j = i
  · subst hij
    simp
  · simp [hij]

theorem setFile_file (v : VFS F) (i j : ℕ) (file : Option F) :
    ((v.setFile i file).nodes j).file = if j = i then file else (v.nodes j).file := by
  unfold VFS.setFile
  by_cases hij : j = i
  · subst hij
    simp
  · simp [hij]

/-- What mounting below a node does: the missing components get nodes, and one file is set. -/
structure Mounts (v : VFS F) (path : ℕ → List CString) (i : ℕ) (ts : List CString) (file : Option F)
    (v' : VFS F) (path' : ℕ → List CString) : Prop where
  tree : v'.Tree path'
  tree_eq : v'.tree = v.tree
  nodes : ∀ l, (∃ j < v'.fresh, path' j = l) ↔
    (∃ j < v.fresh, path j = l) ∨ ∃ l', l' <+: ts ∧ l = path i ++ l'
  file : ∀ j < v'.fresh, path' j = path i ++ ts → (v'.nodes j).file = file
  frame : ∀ j < v.fresh, j < v'.fresh ∧ path' j = path j ∧
    (path j ≠ path i ++ ts → (v'.nodes j).file = (v.nodes j).file)
  fresh : ∀ j < v'.fresh, v.fresh ≤ j → path' j ≠ path i ++ ts → (v'.nodes j).file = none

theorem setFile_mounts (h : v.Tree path) (hi : i < v.fresh) (root file : Option F) :
    Mounts v path i [] file ({ v with root := root }.setFile i file) path := by
  have htree : ({ v with root := root }.setFile i file).Tree path := by
    unfold VFS.Tree
    simp only [setFile_children, setFile_name]
    exact h
  refine ⟨htree, rfl, ?_, ?_, ?_, fun j hj hle => absurd hj (Nat.not_lt.mpr hle)⟩
  · intro l
    constructor
    · exact Or.inl
    · rintro (hl | ⟨l', hl', rfl⟩)
      · exact hl
      · exact ⟨i, hi, by rw [List.prefix_nil.mp hl', List.append_nil]⟩
  · intro j hj hpj
    rw [List.append_nil] at hpj
    rw [setFile_file, if_pos (h.path_inj j hj i hi hpj)]
  · intro j hj
    refine ⟨hj, rfl, fun hpj => ?_⟩
    rw [setFile_file, if_neg]
    rintro rfl
    exact hpj (List.append_nil _).symm

/-- The node for a new component. -/
theorem insert_tree (h : v.Tree path) (hi : i < v.fresh)
    (hnew : ∀ c ∈ (v.nodes i).children, (v.nodes c).name ≠ t) :
    (v.insert i t).Tree (Function.update path v.fresh (path i ++ [t])) := by
  have hnodes : { j | j < (v.insert i t).fresh } = Insert.insert v.fresh { j | j < v.fresh } := by
    ext j
    simp only [VFS.insert, Set.mem_ofPred_eq, Set.mem_insert_iff]
    omega
  unfold VFS.Tree
  rw [hnodes]
  refine h.insert hi (lt_irrefl v.fresh) hnew ?_ ?_ ?_ ?_ ?_
  · intro d hd
    have hd' : d ≠ v.fresh := Nat.ne_of_lt hd
    by_cases hdi : d = i
    · subst hdi
      simp [VFS.insert, hd']
    · simp [VFS.insert, hd', hdi]
  · simp [VFS.insert]
  · intro d hd hdi
    have hd' : d ≠ v.fresh := Nat.ne_of_lt hd
    simp [VFS.insert, hd', hdi]
  · have hi' : i ≠ v.fresh := Nat.ne_of_lt hi
    simp [VFS.insert, hi']
  · simp [VFS.insert]

theorem insert_file (v : VFS F) (i j : ℕ) (t : CString) : ((v.insert i t).nodes j).file =
    if j = v.fresh then none else (v.nodes j).file := by
  unfold VFS.insert
  by_cases hj : j = v.fresh
  · subst hj
    simp
  · by_cases hji : j = i
    · subst hji
      simp [hj]
    · simp [hj, hji]

/-- Mounting below a child. -/
theorem Mounts.of_child {c : ℕ} {ts : List CString} (h : Mounts v path c ts file v' path')
    (hi : i < v.fresh) (hpc : path c = path i ++ [t]) :
    Mounts v path i (t :: ts) file v' path' := by
  have happ : ∀ l, path c ++ l = path i ++ t :: l := by
    intro l
    rw [hpc, List.append_assoc, List.singleton_append]
  obtain ⟨htree, heq, hnodes, hfile, hframe, hfresh⟩ := h
  rw [happ] at hfile hfresh
  refine ⟨htree, heq, ?_, hfile, fun j hj => happ ts ▸ hframe j hj, hfresh⟩
  intro l
  rw [hnodes]
  constructor
  · rintro (hl | ⟨l', hl', rfl⟩)
    · exact Or.inl hl
    · exact Or.inr ⟨t :: l', List.cons_prefix_cons.mpr ⟨rfl, hl'⟩, happ l'⟩
  · rintro (hl | ⟨l', hl', rfl⟩)
    · exact Or.inl hl
    · cases l' with
      | nil => exact Or.inl ⟨i, hi, (List.append_nil _).symm⟩
      | cons u l' =>
        obtain ⟨rfl, htail⟩ := List.cons_prefix_cons.mp hl'
        exact Or.inr ⟨l', htail, (happ l').symm⟩

/-- Mounting below a node that was just added. -/
theorem Mounts.of_insert {ts : List CString} (hi : i < v.fresh)
    (hnew : ∀ j < v.fresh, ∀ l, path j ≠ path i ++ t :: l)
    (h : Mounts (v.insert i t) (Function.update path v.fresh (path i ++ [t])) v.fresh ts file v' path') :
    Mounts v path i (t :: ts) file v' path' := by
  have hold : ∀ j < v.fresh, Function.update path v.fresh (path i ++ [t]) j = path j := fun j hj =>
    Function.update_of_ne (Nat.ne_of_lt hj) _ _
  have happ : ∀ l, path i ++ [t] ++ l = path i ++ t :: l := by
    intro l
    rw [List.append_assoc, List.singleton_append]
  obtain ⟨htree, heq, hnodes, hfile, hframe, hfresh⟩ := h
  rw [Function.update_self, happ] at hfile hfresh
  refine ⟨htree, heq, ?_, hfile, ?_, ?_⟩
  · intro l
    rw [hnodes, Function.update_self]
    constructor
    · rintro (⟨j, hj, rfl⟩ | ⟨l', hl', rfl⟩)
      · rcases Nat.lt_succ_iff_lt_or_eq.mp hj with hj | rfl
        · exact Or.inl ⟨j, hj, (hold j hj).symm⟩
        · rw [Function.update_self]
          exact Or.inr ⟨[t], List.cons_prefix_cons.mpr ⟨rfl, List.nil_prefix⟩, rfl⟩
      · exact Or.inr ⟨t :: l', List.cons_prefix_cons.mpr ⟨rfl, hl'⟩, happ l'⟩
    · rintro (⟨j, hj, rfl⟩ | ⟨l', hl', rfl⟩)
      · exact Or.inl ⟨j, Nat.lt_succ_of_lt hj, hold j hj⟩
      · cases l' with
        | nil =>
          exact Or.inl ⟨i, Nat.lt_succ_of_lt hi, by rw [hold i hi, List.append_nil]⟩
        | cons u l' =>
          obtain ⟨rfl, htail⟩ := List.cons_prefix_cons.mp hl'
          exact Or.inr ⟨l', htail, (happ l').symm⟩
  · intro j hj
    obtain ⟨hlt, hpath, hkeep⟩ := hframe j (Nat.lt_succ_of_lt hj)
    rw [hold j hj, Function.update_self, happ, insert_file, if_neg (Nat.ne_of_lt hj)] at hkeep
    rw [hold j hj] at hpath
    exact ⟨hlt, hpath, hkeep⟩
  · intro j hj hle hne
    by_cases hjf : j = v.fresh
    · subst hjf
      obtain ⟨-, hpath, hkeep⟩ := hframe v.fresh (Nat.lt_succ_self _)
      rw [hpath, Function.update_self] at hne
      rw [Function.update_self, happ, insert_file, if_pos rfl] at hkeep
      exact hkeep hne
    · exact hfresh j hj (by simp only [VFS.insert]; omega) hne

theorem mountRecursive_mounts (h : v.Tree path) (hi : i < v.fresh) (p : Option CString)
    (file : Option F) :
    ∃ path', Mounts v path i (toks p) file (v.mountRecursive p i file).2 path' := by
  induction hn : sepSize p using Nat.strong_induction_on generalizing v path p i with
  | _ n ih =>
    rw [mountRecursive]
    split
    · next p' hsep =>
      rw [toks_strsep_none hsep]
      exact ⟨path, setFile_mounts h hi v.root file⟩
    · next t p' hsep =>
      rw [toks_strsep hsep]
      by_cases ht : t = []
      · rw [if_pos (strcmp_eq_zero.mpr ht), if_pos ht]
        exact ⟨path, setFile_mounts h hi v.root file⟩
      · rw [if_neg (strcmp_eq_zero.not.mpr ht), if_neg ht]
        have hmatch := @lastMatch_eq F v t (v.nodes i).children
        have hlt := hn ▸ sepSize_strsep_lt hsep
        split
        · next c hc =>
          rw [hc] at hmatch
          obtain ⟨hclt, hpc⟩ := h.child i hi c hmatch.1
          obtain ⟨path', hpath'⟩ := ih _ hlt h hclt p' rfl
          rw [hmatch.2] at hpc
          exact ⟨path', hpath'.of_child hi hpc⟩
        · next hnone =>
          rw [hnone] at hmatch
          have hnew : ∀ j < v.fresh, ∀ l, path j ≠ path i ++ t :: l := by
            intro j hj l hpj
            obtain ⟨c, hc, hname⟩ := h.exists_child hi hj hpj
            exact hmatch c hc hname
          obtain ⟨path', hpath'⟩ :=
            ih _ hlt (insert_tree h hi hmatch) (Nat.lt_succ_self v.fresh) p' rfl
          exact ⟨path', hpath'.of_insert hi hnew⟩

end Pros
