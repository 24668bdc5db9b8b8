import Pros.FS.VFS
import Pros.Foundations.Run

/-!
# Mount tables

What a mount table is for: it maps component lists to files. A path is resolved to the longest prefix of
its components that was mounted, or lies on the way to something mounted, and the file there is the one
that was mounted last.
-/

namespace Pros

/-- The components of a path after its first character, up to the first empty one. -/
def tok (path : CString) : List CString := (path.tail.splitOn slash).takeWhile (· ≠ [])

/-- A file system with the calls of `mount` so far, latest first, and what they returned. -/
structure MountClient (F : Type) where
  vfs : VFS F
  calls : List (CString × F × Bool)

namespace MountClient

variable {F : Type}

def new : MountClient F := ⟨VFS.init, []⟩

/-- Mounting a file, not null, at an absolute path. -/
def Step (c : MountClient F) (op : CString × F) (c' : MountClient F) : Prop :=
  op.1.head? = some slash ∧
    c' = ⟨(c.vfs.mount op.1 (some op.2)).2,
      (op.1, op.2, (c.vfs.mount op.1 (some op.2)).1) :: c.calls⟩

end MountClient

section Table

variable {F : Type}

/-- The file of the last successful call for a component list. -/
def lastFile : List (CString × F × Bool) → List CString → Option F
  | [], _ => none
  | (path, file, ok) :: calls, l => if ok = true ∧ tok path = l then some file else lastFile calls l

/-- The table has an entry for the list: it is the root, or a prefix of a path of a call. -/
def HasEntry (calls : List (CString × F × Bool)) (l : List CString) : Prop :=
  l = [] ∨ ∃ x ∈ calls, l <+: tok x.1

/-- `l` is the longest prefix of `ts` with an entry. -/
def LongestEntry (calls : List (CString × F × Bool)) (ts l : List CString) : Prop :=
  l <+: ts ∧ HasEntry calls l ∧ ∀ l', l' <+: ts → HasEntry calls l' → l' <+: l

/-- The node that is reached from the root through children with the names listed. -/
inductive EntryAt (v : VFS F) : List CString → ℕ → Prop where
  | root : EntryAt v [] v.tree
  | child {l : List CString} {i c : ℕ} (h : EntryAt v l i) (hc : c ∈ (v.nodes i).children) :
      EntryAt v (l ++ [(v.nodes c).name]) c

/-- A path is resolved to the entry of `l`, by both functions, and to no other. -/
structure ResolvesTo (v : VFS F) (path : CString) (l : List CString) : Prop where
  entryAt : EntryAt v l (v.getMount path)
  unique : ∀ i, EntryAt v l i → i = v.getMount path
  advance : (v.getMountAdvance path).1 = v.getMount path

end Table

end Pros
