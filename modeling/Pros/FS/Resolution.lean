import Pros.FS.MountTable
import Pros.FS.OpenFile

/-!
# Path resolution

What mounting and opening are for: a path belongs to the longest mounted prefix, and what is left of it
is looked up from the file there, component by component. The code's tree also has entries on which
nothing is mounted, and `openFile` walks the whole path again; so both hold on some inputs only.
-/

namespace Pros

section Mounts

variable {F : Type}

/-- A file was mounted for the component list. -/
def HasMount (calls : List (CString × F × Bool)) (l : List CString) : Prop :=
  ∃ x ∈ calls, x.2.2 = true ∧ tok x.1 = l

/-- `l` is the longest prefix of `ts` that a file was mounted for. -/
def LongestMount (calls : List (CString × F × Bool)) (ts l : List CString) : Prop :=
  l <+: ts ∧ HasMount calls l ∧ ∀ l', l' <+: ts → HasMount calls l' → l' <+: l

/-- `getMount` gives the entry of the longest mounted prefix, and there is a file. -/
def FindsMount (c : MountClient F) (q : CString) : Prop :=
  (∃ l, LongestMount c.calls (tok q) l ∧ EntryAt c.vfs l (c.vfs.getMount q)) ∧
    (c.vfs.nodes (c.vfs.getMount q)).file ≠ none

/-- Mounting `f` at `p` makes no difference to `getMount` on `q`. -/
def KeepsMount (v : VFS F) (p : CString) (f : F) (q : CString) : Prop :=
  (v.mount p (some f)).2.getMount q = v.getMount q ∧
    ((v.mount p (some f)).2.nodes (v.getMount q)).file = (v.nodes (v.getMount q)).file

/-- Mounting at `p` is refused: the call returns false and changes nothing, and `klog` is not given a
    null pointer to print. -/
def Refused (v : VFS F) (p : CString) (file : Option F) : Prop :=
  v.mount p file = (false, v) ∧ v.mountKlog p ≠ some none

end Mounts

/-- An absolute path without empty components. -/
def Normalised (path : CString) : Prop :=
  path = [slash] ∨ path.head? = some slash ∧ [] ∉ path.tail.splitOn slash

section Lookup

variable {F S σ : Type} (deref : F → VFSNode S) (find : S → F → CString → σ → Option F × σ)

/-- Looking up the components one after the other; null once one is not found. -/
def lookup (node : Option F) : List CString → σ → Option F × σ
  | [], s => (node, s)
  | c :: cs, s =>
    match VFS.findDirectory deref find node c s with
    | (none, s) => (none, s)
    | (some node, s) => lookup (some node) cs s

/-- `findDirectory` asks the storage of the node. -/
def Searchable (node : Option F) : Prop :=
  ∃ n, node = some n ∧ (deref n).flags &&& FS_DIRECTORY ≠ 0 ∧ (deref n).storage ≠ none

/-- What `openFile` does with `p` is the lookup: no file is mounted where `getMount` ends; or nothing is
    left of the path, which is not `/`; or there is much left, but the file cannot be searched. -/
def OpensAt (start : Option F) (p : CString) (rest : List CString) : Prop :=
  start = none ∨ p ≠ [slash] ∧ rest = [] ∨ 2 ≤ rest.length ∧ ¬ Searchable deref start

end Lookup

end Pros
