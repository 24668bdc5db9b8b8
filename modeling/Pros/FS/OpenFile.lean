import Pros.FS.VFS

/-!
# Opening files

`openFile` finds the mount point of a path and looks the rest up in its storage. A storage is whatever
implements `findDirectory`; the calls may depend on a state of the storages, of type `σ`.
-/

namespace Pros

/-- `VFSNode`, less its name, which is only printed. -/
structure VFSNode (S : Type) where
  flags : U32
  storage : Option S

def FS_DIRECTORY : U32 := 0x02

namespace VFS

variable {F S σ : Type} (deref : F → VFSNode S) (find : S → F → CString → σ → Option F × σ)

/-- `VFS::findDirectory`, where `find` is the storage's. -/
def findDirectory (node : Option F) (name : CString) (s : σ) : Option F × σ :=
  match node with
  | none => (none, s)
  | some node =>
    if (deref node).flags &&& FS_DIRECTORY ≠ 0 then
      match (deref node).storage with
      | some storage => find storage node name s
      | none => (none, s)
    else (none, s)

/-- The loop of `openFile`, when `filename` is not null, and the lines after it. -/
def openLoop (start next : Option F) (filenameStart : Option CString) (s : σ) : Option F × σ :=
  match _h : strsep filenameStart [slash] with
  | (none, _) => (if next.isSome then next else start, s)
  | (some currentToken, filenameStart') =>
    match findDirectory deref find start currentToken s with
    | (none, s) => (none, s)
    | (some next, s) => openLoop (some next) (some next) filenameStart' s
termination_by sepSize filenameStart
decreasing_by exact sepSize_strsep_lt ‹_›

def openFile (v : VFS F) (path : CString) (s : σ) : Option F × σ :=
  let filename := strdup path
  let filenameStart := strdup filename
  let (mount, filename) := v.getMountAdvance filename
  let start := (v.nodes mount).file
  match filename with
  | none => (start, s)
  | some _ => openLoop deref find start none (some filenameStart) s

/-- `VFS::read`, where `read` is the storage's: what it returns, or `none` when it does not. -/
def read (read : S → F → (offset size buffer : U32) → σ → Option (U32 × σ)) (node : F) (offset size buffer : U32)
    (s : σ) : Option (U32 × σ) :=
  match (deref node).storage with
  | some storage => read storage node offset size buffer s
  | none => some (0, s)

end VFS

end Pros
