import Pros.Lib.CString
import Mathlib.Logic.Function.Basic

/-!
# The virtual file system

The mount table of `VFS.cpp`: a tree of nodes, each with the name of a path component and the file that is
mounted there. Nodes are kept in a store and named by numbers, as the code names them by pointers; a node
of the tree and its `VFSMount` are one record. The type `F` stands for `VFSNode`.

The allocations of `insert`, `strdup` and `mount` are taken to succeed. With the heap exhausted they return null, which
the code stores through without a test, and there is no next state.
-/

namespace Pros

/-- A `GenericTreeNode` with its `VFSMount`; the list of children begins at its head. -/
structure VFSMount (F : Type) where
  name : CString
  file : Option F
  children : List ℕ

structure VFS (F : Type) where
  nodes : ℕ → VFSMount F
  /-- The next node to be allocated. Nothing reads what the store holds from here on. -/
  fresh : ℕ
  root : Option F
  tree : ℕ

namespace VFS

variable {F : Type}

/-- `"root"`. -/
def rootName : CString :=
  [⟨0x72, by decide⟩, ⟨0x6F, by decide⟩, ⟨0x6F, by decide⟩, ⟨0x74, by decide⟩]

/-- `VFS::init`. The static object is zero before. -/
def init : VFS F where
  nodes _ := ⟨strdup rootName, none, []⟩
  fresh := 1
  root := none
  tree := 0

/-- Assign to the file of an entry. -/
def setFile (v : VFS F) (entry : ℕ) (file : Option F) : VFS F :=
  { v with nodes := Function.update v.nodes entry { v.nodes entry with file := file } }

/-- `subroot->children->insert(new GenericTreeNode(entry))`: the new node goes to the head of the list. The node, its
    entry and its cell of the list are there. -/
def insert (v : VFS F) (subroot : ℕ) (name : CString) : VFS F where
  nodes := Function.update
    (Function.update v.nodes subroot
      { v.nodes subroot with children := v.fresh :: (v.nodes subroot).children })
    v.fresh ⟨name, none, []⟩
  fresh := v.fresh + 1
  root := v.root
  tree := v.tree

/-- The loop of `mountRecursive` over the children: the last match counts. -/
def lastMatch (v : VFS F) (currentToken : CString) (children : List ℕ) : Option ℕ :=
  children.foldl
    (fun found child => if strcmp (v.nodes child).name currentToken = 0 then some child else found) none

/-- The loop of `getMountRecursive` over the children: it stops at the first match. -/
def firstMatch (v : VFS F) (currentToken : CString) (children : List ℕ) : Option ℕ :=
  children.find? fun child => strcmp (v.nodes child).name currentToken = 0

def mountRecursive (v : VFS F) (path : Option CString) (subroot : ℕ) (file : Option F) : Bool × VFS F :=
  match _h : strsep path [slash] with
  | (none, _) => (true, v.setFile subroot file)
  | (some currentToken, path') =>
    if strcmp currentToken [] = 0 then (true, v.setFile subroot file)
    else
      match v.lastMatch currentToken (v.nodes subroot).children with
      | some child => mountRecursive v path' child file
      | none => mountRecursive (v.insert subroot (strdup currentToken)) path' v.fresh file
termination_by sepSize path
decreasing_by all_goals exact sepSize_strsep_lt ‹_›

def mount (v : VFS F) (path : CString) (file : Option F) : Bool × VFS F :=
  if path.head? = some slash ∧ strlen path = 1 then
    if (v.nodes v.tree).file.isSome then (false, v)
    else (true, { v with root := file }.setFile v.tree file)
  else
    let dupPath := strdup path.tail
    let (_, v) := mountRecursive v (some dupPath) v.tree file
    (true, v)

/-- What `mountRecursive` passes for the `%s` of `"/%s is already mounted"`, if it gets there. -/
def mountRecursiveKlog (v : VFS F) (path : Option CString) (subroot : ℕ) : Option (Option CString) :=
  match _h : strsep path [slash] with
  | (none, path') => if (v.nodes subroot).file.isSome then some path' else none
  | (some currentToken, path') =>
    if strcmp currentToken [] = 0 then
      if (v.nodes subroot).file.isSome then some path' else none
    else
      match v.lastMatch currentToken (v.nodes subroot).children with
      | some child => mountRecursiveKlog v path' child
      | none => mountRecursiveKlog (v.insert subroot (strdup currentToken)) path' v.fresh
termination_by sepSize path
decreasing_by all_goals exact sepSize_strsep_lt ‹_›

/-- The argument for `%s` in a call of `mount`. The message about the root has none. -/
def mountKlog (v : VFS F) (path : CString) : Option (Option CString) :=
  if path.head? = some slash ∧ strlen path = 1 then none
  else
    let dupPath := strdup path.tail
    mountRecursiveKlog v (some dupPath) v.tree

/-- The entry found, and what is left of the path. -/
def getMountRecursive (v : VFS F) (path : Option CString) (subroot : ℕ) : ℕ × Option CString :=
  match _h : strsep path [slash] with
  | (none, path') => (subroot, path')
  | (some currentToken, path') =>
    if strcmp currentToken [] = 0 then (subroot, path')
    else
      match v.firstMatch currentToken (v.nodes subroot).children with
      | some child => getMountRecursive v path' child
      | none => (subroot, path')
termination_by sepSize path
decreasing_by exact sepSize_strsep_lt ‹_›

/-- `getMount(const char*)`. -/
def getMount (v : VFS F) (path : CString) : ℕ :=
  if path.head? = some slash ∧ strlen path = 1 then v.tree
  else
    let pathDup := strdup path.tail
    (getMountRecursive v (some pathDup) v.tree).1

/-- `getMount(char**)`, which also advances the caller's pointer. -/
def getMountAdvance (v : VFS F) (path : CString) : ℕ × Option CString :=
  if path.head? = some slash ∧ strlen path = 1 then (v.tree, some path)
  else getMountRecursive v (some path.tail) v.tree

end VFS

end Pros
