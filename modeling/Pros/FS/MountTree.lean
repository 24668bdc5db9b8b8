import Pros.FS.MountTable

/-!
# The tree of mounts

What the tree behind the mount table is like after any calls of `mount`, and what a call leaves as it is.
-/

namespace Pros

variable {F : Type}

/-- Mounting at an absolute path. The file may be null. -/
def VFS.Step (v : VFS F) (op : CString × Option F) (v' : VFS F) : Prop :=
  op.1.head? = some slash ∧ v' = (v.mount op.1 op.2).2

/-- A node of the tree. -/
def VFS.IsNode (v : VFS F) (i : ℕ) : Prop := ∃ l, EntryAt v l i

/-- Children are told apart by their names, which are components, so it does not matter which of two children
    with the same name a scan ends at. -/
structure VFS.WellNamed (v : VFS F) : Prop where
  distinct : ∀ i, v.IsNode i → ((v.nodes i).children.map fun c => (v.nodes c).name).Nodup
  component : ∀ i, v.IsNode i → i ≠ v.tree → (v.nodes i).name ≠ [] ∧ slash ∉ (v.nodes i).name
  scan : ∀ i, v.IsNode i → ∀ currentToken,
    v.firstMatch currentToken (v.nodes i).children = v.lastMatch currentToken (v.nodes i).children

/-- The nodes of the first tree are in the second one, under the same names and at the same paths. -/
def VFS.Keeps (v v' : VFS F) : Prop :=
  ∀ l i, EntryAt v l i → (∀ l', EntryAt v' l' i ↔ l' = l) ∧ (v'.nodes i).name = (v.nodes i).name

end Pros
