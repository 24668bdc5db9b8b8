import Pros.FS.Resolution
import Pros.FS.Proofs.MountTableProofs

/-!
# Opening files

The loop of `openFile` is a lookup of all the components of the whole path, the empty one before the
first `/` included. It is entered when more than one component is left beyond the mount point, and for
`/`. So `openFile` resolves a path exactly when nothing is left of it, or when nothing can be found.
-/

namespace Pros

open VFS

variable {F S σ : Type} {deref : F → VFSNode S} {find : S → F → CString → σ → Option F × σ}
  {c : MountClient F} {path : ℕ → List CString} {p name : CString} {l rest cs : List CString}
  {start next : Option F} {s : σ}

/-! ## Lookups -/

theorem findDirectory_of_not_searchable (h : ¬ Searchable deref start) :
    findDirectory deref find start name s = (none, s) := by
  unfold findDirectory
  split
  · rfl
  · next n =>
    split_ifs with hflags
    · split
      · next storage hstorage =>
        have hne : (deref n).storage ≠ none := by
          rw [hstorage]
          exact Option.some_ne_none _
        exact absurd ⟨n, rfl, hflags, hne⟩ h
      · rfl
    · rfl

theorem findDirectory_of_searchable (h : Searchable deref start) :
    ∃ n storage, start = some n ∧ ∀ (find : S → F → CString → σ → Option F × σ) name s,
      findDirectory deref find start name s = find storage n name s := by
  obtain ⟨n, rfl, hflags, hstorage⟩ := h
  obtain ⟨storage, hsome⟩ := Option.ne_none_iff_exists'.mp hstorage
  refine ⟨n, storage, rfl, fun find name s => ?_⟩
  unfold findDirectory
  simp only [if_pos hflags, hsome]

theorem not_searchable_none : ¬ Searchable deref none := by
  rintro ⟨n, hn, -⟩
  cases hn

/-- Nothing is found below a node that cannot be searched. -/
theorem lookup_of_not_searchable (h : ¬ Searchable deref start) (hcs : cs ≠ []) :
    lookup deref find start cs s = (none, s) := by
  cases cs with
  | nil => exact absurd rfl hcs
  | cons name cs => rw [lookup, findDirectory_of_not_searchable h]

/-- Nothing is found below the null pointer. -/
theorem lookup_none : lookup deref find none cs s = (none, s) := by
  cases cs with
  | nil => rfl
  | cons name cs => exact lookup_of_not_searchable not_searchable_none (List.cons_ne_nil _ _)

/-! ## The loop -/

/-- Once a component was found, `next` is where the loop has got to. -/
theorem openLoop_eq {p : Option CString} (hnext : next = none ∨ next = start) :
    openLoop deref find start next p s = lookup deref find start (comps p) s := by
  induction hn : sepSize p using Nat.strong_induction_on generalizing p start next s with
  | _ n ih =>
    rw [openLoop]
    split
    · next p' hsep =>
      rw [(strsep_none hsep).1, comps, lookup]
      rcases hnext with rfl | rfl
      · rfl
      · rw [ite_self]
    · next t p' hsep =>
      rw [comps_strsep hsep, lookup]
      cases findDirectory deref find start t s with
      | mk found s' =>
        cases found with
        | none => rfl
        | some m => exact ih _ (hn ▸ sepSize_strsep_lt hsep) (Or.inr rfl) rfl

/-- The path begins with an empty component. -/
theorem comps_absolute (hp : p.head? = some slash) :
    comps (some p) = [] :: p.tail.splitOn slash := by
  cases p with
  | nil => cases hp
  | cons a p =>
    obtain rfl := Option.some.inj hp
    exact comps_strsep (show strsep (some (slash :: p)) [slash] = (some [], some p) from rfl)

theorem not_root (hne : p ≠ [slash]) : ¬ (p.head? = some slash ∧ strlen p = 1) := by
  rintro ⟨hp, hlen⟩
  obtain ⟨a, rfl⟩ := List.length_eq_one_iff.mp hlen
  rw [List.head?_cons, Option.some.injEq] at hp
  exact hne (by rw [hp])

/-- For `/` the loop is entered, and looks up two empty components. -/
theorem openFile_root (v : VFS F) (s : σ) :
    openFile deref find v [slash] s =
      lookup deref find (v.nodes (v.getMount [slash])).file [[], []] s := by
  have hadvance : v.getMountAdvance [slash] = (v.getMount [slash], some [slash]) := rfl
  unfold openFile
  simp only [strdup, hadvance]
  exact openLoop_eq (Or.inl rfl)

/-- When at most one component is left, `openFile` is content with the mount point's file; else it looks
    up the whole path there. -/
theorem MountInv.openFile_eq (h : MountInv c path) (hp : p.head? = some slash)
    (hcomps : [] ∉ p.tail.splitOn slash) (hne : p ≠ [slash]) (hl : tok p = l ++ rest)
    (he : EntryAt c.vfs l (c.vfs.getMount p)) :
    openFile deref find c.vfs p s =
      if rest.length ≤ 1 then ((c.vfs.nodes (c.vfs.getMount p)).file, s)
      else lookup deref find (c.vfs.nodes (c.vfs.getMount p)).file ([] :: tok p) s := by
  obtain ⟨l', rest', hl', -, he', hleft⟩ := h.leaves hcomps
  obtain rfl : l = l' :=
    ((entryAt_iff h.tree).mp he).2.symm.trans ((entryAt_iff h.tree).mp he').2
  obtain rfl : rest = rest' := List.append_cancel_left (hl.symm.trans hl')
  have htok : tok p = p.tail.splitOn slash := @toks_of_notMem (some p.tail) hcomps
  have hadvance : c.vfs.getMountAdvance p =
      (c.vfs.getMount p, (c.vfs.getMountRecursive (some p.tail) c.vfs.tree).2) := by
    unfold getMountAdvance
    rw [if_neg (not_root hne), getMount_eq]
  unfold openFile
  simp only [strdup, hadvance]
  by_cases hrest : rest.length ≤ 1
  · have hnil : rest.tail = [] := List.eq_nil_of_length_eq_zero (by rw [List.length_tail]; omega)
    rw [hnil, comps_eq_nil] at hleft
    rw [if_pos hrest, hleft]
  · rw [if_neg hrest]
    have hsome : (c.vfs.getMountRecursive (some p.tail) c.vfs.tree).2 ≠ none := by
      rw [Ne, ← comps_eq_nil, hleft]
      intro hnil
      have hlen := congrArg List.length hnil
      rw [List.length_tail, List.length_nil] at hlen
      omega
    obtain ⟨left, hleft⟩ := Option.ne_none_iff_exists'.mp hsome
    simp only [hleft]
    rw [openLoop_eq (Or.inl rfl), comps_absolute hp, htok]

/-! ## Resolution -/

/-- With a storage that finds nothing. -/
theorem lookup_find_none (hcs : cs ≠ []) :
    (lookup deref (fun _ _ _ s => (none, s)) start cs s).1 = none := by
  by_cases h : Searchable deref start
  · obtain ⟨n, storage, rfl, hfind⟩ := findDirectory_of_searchable (σ := σ) h
    cases cs with
    | nil => exact absurd rfl hcs
    | cons name cs => simp only [lookup, hfind]
  · rw [lookup_of_not_searchable h hcs]

/-- With a storage that finds the same node under every name but the empty one. -/
theorem lookup_find_some (h : Searchable deref start) :
    ∃ n, start = some n ∧ ∀ cs (s : σ),
      (lookup deref (fun _ _ name s => (if name = [] then none else some n, s)) start cs s).1 =
        if [] ∈ cs then none else some n := by
  obtain ⟨n, storage, rfl, hfind⟩ := findDirectory_of_searchable (σ := σ) h
  refine ⟨n, rfl, fun cs s => ?_⟩
  induction cs with
  | nil => rfl
  | cons name cs ih =>
    simp only [lookup, hfind]
    by_cases hname : name = []
    · rw [if_pos hname, if_pos (hname ▸ List.mem_cons_self)]
    · rw [if_neg hname]
      simp only [List.mem_cons, or_iff_right (Ne.symm hname)]
      exact ih

theorem MountInv.openFile_of_opensAt (h : MountInv c path) (hp : Normalised p) (hl : tok p = l ++ rest)
    (he : EntryAt c.vfs l (c.vfs.getMount p))
    (hopens : OpensAt deref (c.vfs.nodes (c.vfs.getMount p)).file p rest) :
    openFile deref find c.vfs p s =
      lookup deref find (c.vfs.nodes (c.vfs.getMount p)).file rest s := by
  rcases hp with rfl | ⟨hp, hcomps⟩
  · rw [openFile_root]
    rcases hopens with hnone | ⟨hne, -⟩ | ⟨hlen, -⟩
    · rw [hnone, lookup_none, lookup_none]
    · exact absurd rfl hne
    · have hnil := (List.append_eq_nil_iff.mp hl.symm).2
      rw [hnil] at hlen
      exact absurd hlen (by decide)
  · have hne : p ≠ [slash] := by
      rintro rfl
      exact hcomps (by decide)
    rw [h.openFile_eq hp hcomps hne hl he]
    rcases hopens with hnone | ⟨-, rfl⟩ | ⟨hlen, hsearch⟩
    · rw [hnone, lookup_none, lookup_none, ite_self]
    · rfl
    · rw [if_neg (by omega), lookup_of_not_searchable hsearch (List.cons_ne_nil _ _),
        lookup_of_not_searchable hsearch]
      rintro rfl
      exact absurd hlen (by decide)

theorem MountInv.opensAt_of_openFile (h : MountInv c path) (hp : Normalised p)
    (hl : tok p = l ++ rest) (he : EntryAt c.vfs l (c.vfs.getMount p))
    (hall : ∀ find, (openFile deref find c.vfs p s).1 =
      (lookup deref find (c.vfs.nodes (c.vfs.getMount p)).file rest s).1) :
    OpensAt deref (c.vfs.nodes (c.vfs.getMount p)).file p rest := by
  have hnone := hall fun _ _ _ s => (none, s)
  rcases hp with rfl | ⟨hp, hcomps⟩
  · rw [openFile_root, lookup_find_none (List.cons_ne_nil _ _),
      (List.append_eq_nil_iff.mp hl.symm).2] at hnone
    exact Or.inl hnone.symm
  · have hne : p ≠ [slash] := by
      rintro rfl
      exact hcomps (by decide)
    rw [h.openFile_eq hp hcomps hne hl he] at hnone
    by_cases hlen : rest.length ≤ 1
    · rw [if_pos hlen] at hnone
      by_cases hrest : rest = []
      · exact Or.inr (Or.inl ⟨hne, hrest⟩)
      · rw [lookup_find_none hrest] at hnone
        exact Or.inl hnone
    · refine Or.inr (Or.inr ⟨by omega, fun hsearch => ?_⟩)
      -- The whole path begins with an empty component, which this storage does not find.
      obtain ⟨n, hn, hlookup⟩ := lookup_find_some (σ := σ) hsearch
      have hsome := hall fun _ _ name s => (if name = [] then none else some n, s)
      have htok : tok p = p.tail.splitOn slash := @toks_of_notMem (some p.tail) hcomps
      have hrest : [] ∉ rest := by
        intro hmem
        rw [← htok, hl] at hcomps
        exact hcomps (List.mem_append_right _ hmem)
      rw [h.openFile_eq hp hcomps hne hl he, if_neg hlen, hlookup, hlookup,
        if_pos List.mem_cons_self, if_neg hrest] at hsome
      exact absurd hsome.symm (Option.some_ne_none _)

/-- Path resolution. After any sequence of mounts, `openFile` on a normalised path is the lookup of what
    is left beyond the mount point, for every storage, exactly in these cases; and then it also calls the
    storages as the lookup does. -/
theorem openFile_resolves_iff {ops : List (CString × F)} (hrun : Run MountClient.Step .new ops c)
    (hp : Normalised p) (hl : tok p = l ++ rest) (he : EntryAt c.vfs l (c.vfs.getMount p))
    (deref : F → VFSNode S) (s : σ) :
    ((∀ find, (openFile deref find c.vfs p s).1 =
        (lookup deref find (c.vfs.nodes (c.vfs.getMount p)).file rest s).1) ↔
      OpensAt deref (c.vfs.nodes (c.vfs.getMount p)).file p rest) ∧
    (OpensAt deref (c.vfs.nodes (c.vfs.getMount p)).file p rest →
      ∀ find, openFile deref find c.vfs p s =
        lookup deref find (c.vfs.nodes (c.vfs.getMount p)).file rest s) := by
  obtain ⟨path, h⟩ := MountInv.new.run hrun
  refine ⟨⟨h.opensAt_of_openFile hp hl he, fun hopens find => ?_⟩, fun hopens find => ?_⟩
  · rw [h.openFile_of_opensAt hp hl he hopens]
  · exact h.openFile_of_opensAt hp hl he hopens

/-- With a directory at `/` and a file that is none at `/a`, two components are left of `/a/a/a`. -/
theorem openFile_resolves_nested : ∃ c : MountClient Bool,
    Run MountClient.Step .new [([slash], true), ([slash, letterA], false)] c ∧
    (c.vfs.nodes (c.vfs.getMount [slash, letterA, slash, letterA, slash, letterA])).file = some false ∧
    ∀ find, openFile (fun b => ⟨if b then FS_DIRECTORY else 0, some ()⟩) find c.vfs
        [slash, letterA, slash, letterA, slash, letterA] () =
      lookup (fun b => ⟨if b then FS_DIRECTORY else 0, some ()⟩) find (some false) [[letterA], [letterA]] () := by
  obtain ⟨c, hrun, hcalls⟩ := nested_mounts
  obtain ⟨path, h⟩ := MountInv.new.run hrun
  obtain ⟨l, hlong, hres, hfile⟩ := h.resolves [slash, letterA, slash, letterA, slash, letterA]
  rw [hcalls] at hlong hfile
  obtain rfl := hlong.nested (by decide)
  have hfile' := hfile.trans (show lastFile _ [[letterA]] = some false from rfl)
  refine ⟨c, hrun, hfile', ?_⟩
  have hopens := (openFile_resolves_iff hrun (Or.inr ⟨rfl, by decide⟩)
    (show _ = [[letterA]] ++ [[letterA], [letterA]] by decide) hres.entryAt
    (fun b => ⟨if b then FS_DIRECTORY else 0, some ()⟩) ()).2
  rw [hfile'] at hopens
  refine hopens (Or.inr (Or.inr ⟨le_rfl, ?_⟩))
  rintro ⟨n, hn, hflags, -⟩
  obtain rfl := Option.some.inj hn
  exact hflags (by decide)

/-- With one file, mounted at `/`, whose storage finds nothing, `openFile` on `/a` returns that file. -/
theorem openFile_unresolved : ∃ c : MountClient Bool,
    Run MountClient.Step .new [([slash], true)] c ∧ Normalised [slash, letterA] ∧
    tok [slash, letterA] = [] ++ [[letterA]] ∧ EntryAt c.vfs [] (c.vfs.getMount [slash, letterA]) ∧
    (openFile (fun _ => ⟨FS_DIRECTORY, some ()⟩) (fun _ _ _ s => (none, s)) c.vfs
      [slash, letterA] ()).1 = some true ∧
    (lookup (fun _ => ⟨FS_DIRECTORY, some ()⟩) (fun _ _ _ s => (none, s))
      (c.vfs.nodes (c.vfs.getMount [slash, letterA])).file [[letterA]] ()).1 = none := by
  have hrun : Run (MountClient.Step (F := Bool)) .new [([slash], true)] _ :=
    .snoc ([slash], true) .nil ⟨rfl, rfl⟩
  obtain ⟨path, h⟩ := MountInv.new.run hrun
  have hcomps : [] ∉ [slash, letterA].tail.splitOn slash := by decide
  obtain ⟨l, hlong, hres, hfile⟩ := h.resolves [slash, letterA]
  -- The only entry is that of `/`.
  obtain rfl : l = [] := by
    rcases hlong.2.1 with hnil | ⟨x, hx, hl⟩
    · exact hnil
    · obtain rfl := List.mem_singleton.mp hx
      exact List.prefix_nil.mp hl
  have hl : tok [slash, letterA] = [] ++ [[letterA]] := by decide
  refine ⟨_, hrun, Or.inr ⟨rfl, hcomps⟩, hl, hres.entryAt, ?_,
    lookup_find_none (List.cons_ne_nil _ _)⟩
  rw [h.openFile_eq rfl hcomps (by decide) hl hres.entryAt, if_pos (by decide), hfile]
  rfl

end Pros
