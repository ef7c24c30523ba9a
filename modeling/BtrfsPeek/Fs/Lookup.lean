import BtrfsPeek.Fs.Read
import Mathlib.Data.List.Sort

/-!
# Directories, paths and subvolumes

`Fs::entry` to `Fs::resolve`, and `Fs::default_subvol` to `Fs::subvols`. A hash
map is the list of what was put in it, newest first.
-/

namespace BtrfsPeek

open Effect

variable {β : Type}

/-- Names in the order of their bytes. -/
def byName (a b : Entry) : Prop := a.name ≤ b.name

instance : DecidableRel byName := fun a b => inferInstanceAs (Decidable (a.name ≤ b.name))

/-- Whether a root item is that of a snapshot: its parent's uuid is set. -/
def snapshotBit (d : Bytes) : Except Error Bool :=
  if d.length ≥ 279 then do
    let parentUuid ← bytes d 263 16
    return parentUuid.any (· ≠ 0)
  else .ok false

/-- Texts with `/` between them. -/
def joinPath (parts : List Text) : Text := ['/'].intercalate parts

namespace Fs

variable (fs : Fs β)

/-- Inside a snapshot, a nested subvolume is only a placeholder, unless a
ROOT_REF ties the child to this exact tree. -/
def entry (dir : Loc) (e : DirEntry) : FsM β Entry :=
  if e.location.ty ≠ ROOT_ITEM_KEY then
    pure { name := e.name, loc := ⟨dir.tree, e.location.objectid⟩, ftype := e.ftype,
           subvol := false }
  else do
    let child := e.location.objectid
    match ← fs.get fs.sb.root ⟨dir.tree, ROOT_REF_KEY, child⟩ with
    | none => pure { name := e.name, loc := ⟨0, 0⟩, ftype := FT_DIR, subvol := true }
    | some _ => do
      let r ← fs.tree child
      pure { name := e.name, loc := ⟨child, r.rootDirid⟩, ftype := FT_DIR, subvol := true }

/-- Whether subvolume tree `id` was created as a snapshot of another. -/
def isSnapshot (id : Nat) : FsM β Bool := do
  let (_, snap) ← fs.walk fs.sb.root ⟨id, ROOT_ITEM_KEY, 0⟩ ⟨id, ROOT_ITEM_KEY, U64_MAX⟩
    (fun _ d _ => do return (true, ← snapshotBit d)) false
  return snap

def lookup (dir : Loc) (name : Bytes) : FsM β (Option Entry) :=
  if isPlaceholder dir then pure none
  else do
    let r ← fs.tree dir.tree
    match ← fs.get r.bytenr ⟨dir.ino, DIR_ITEM_KEY, nameHash fs.crates name⟩ with
    | none => pure none
    | some item => do
      let es ← lift (parseDirEntries item)
      match es.find? (·.name = name) with
      | none => pure none
      | some e => do
        let e ← fs.entry dir e
        pure (some e)

/-- The entries of a directory's index. -/
def dirEntries (dir : Loc) : FsM β (List DirEntry) := do
  let r ← fs.tree dir.tree
  let (_, raw) ← fs.walk r.bytenr ⟨dir.ino, DIR_INDEX_KEY, 0⟩ ⟨dir.ino, DIR_INDEX_KEY, U64_MAX⟩
    (fun _ d raw => do return (true, raw ++ (← parseDirEntries d))) []
  return raw

def readdir (dir : Loc) : FsM β (List Entry) :=
  if isPlaceholder dir then pure []
  else do
    let raw ← fs.dirEntries dir
    let out ← mapEach (fs.entry dir) raw
    pure (out.insertionSort byName)

/-! ## Paths -/

/-- The components of a path that are looked up. -/
def pathParts (path : Text) : List Text :=
  (path.splitOnP fun c => c = '/' ∨ c = '\\').filter fun p => p ≠ [] ∧ p ≠ ['.']

/-- A path goes on from a directory only, the placeholder included. -/
def checkDir (dir : Loc) (walked : Text) : FsM β Unit :=
  if isPlaceholder dir then pure ()
  else do
    let i ← fs.inode dir
    if i.isSymlink then do
      let target ← fs.readSymlinkTarget dir
      throw (.msg s!"{String.ofList walked} is a symlink to {fs.crates.debugStr (Utf8.fromUtf8Lossy target)}; symlinks are not followed, resolve it yourself")
    else lift (bailIf (i.isDir = false) (.msg s!"{String.ofList walked} is not a directory"))

/-- Follows `parts` from `dir`, whose ancestors are `above`, nearest first. -/
def resolveFrom : List Text → (dir : Loc) → (above : List Loc) → (walked : Text) → FsM β Loc
  | [], dir, _, _ => pure dir
  | part :: parts, dir, above, walked =>
    if part = ['.', '.'] then
      match above with
      | [] => resolveFrom parts dir [] walked
      | parent :: above => resolveFrom parts parent above walked
    else do
      fs.checkDir dir walked
      let walked := walked ++ '/' :: part
      match ← fs.lookup dir (Utf8.toUtf8 part) with
      | some e => resolveFrom parts e.loc (dir :: above) walked
      | none => throw (.notFound (String.ofList walked))

/-- Resolves an absolute path from the top-level subvolume. Symlinks are not
followed. -/
def resolve (path : Text) : FsM β Loc := do
  let r ← fs.root
  fs.resolveFrom (pathParts path) r [] []

/-! ## Subvolumes -/

def defaultSubvol : FsM β Nat := do
  match ← fs.get fs.sb.root
      ⟨fs.sb.rootDirObjectid, DIR_ITEM_KEY, nameHash fs.crates (Utf8.toUtf8 "default".toList)⟩ with
  | none => pure FS_TREE_OBJECTID
  | some item => do
    let es ← lift (parseDirEntries item)
    pure ((es.head?.map (·.location.objectid)).getD FS_TREE_OBJECTID)

/-- The first parent reference of an inode: the directory and the name in it. -/
def parentRef (root : TreeRoot) (ino : Nat) : FsM β (Option (Nat × Text)) := do
  let (_, found) ← fs.walk root.bytenr ⟨ino, INODE_REF_KEY, 0⟩ ⟨ino, INODE_REF_KEY, U64_MAX⟩
    (fun k d _ => do
      let len ← u16At d 8
      return (false, some (k.offset, Utf8.fromUtf8Lossy (← bytes d 10 len)))) none
  return found

/-- The names from the subvolume's root down to `ino`, before `parts`, of which
`left` more may be found. -/
def climb (tree : Nat) (root : TreeRoot) :
    (left : Nat) → (ino : Nat) → (parts : List Text) → FsM β (List Text)
  | 0, ino, parts =>
    if ino = root.rootDirid then pure parts
    else throw (.msg s!"inode {ino} in tree {tree}: the parent chain never reaches the subvolume root")
  | left + 1, ino, parts =>
    if ino = root.rootDirid then pure parts
    else do
      match ← fs.parentRef root ino with
      | none => throw (.msg s!"inode {ino} in tree {tree} has no parent reference")
      | some (parent, name) => climb tree root left parent (name :: parts)

/-- The longest chain of parents climbed. -/
def MAX_PARTS : Nat := 4096

/-- Path of inode `ino` inside its own tree. -/
def pathInTree (tree ino : Nat) : FsM β Text := do
  let root ← fs.tree tree
  let parts ← fs.climb tree root MAX_PARTS ino []
  pure (joinPath parts)

end Fs

/-- What `Fs::subvols` keeps of a root item. -/
structure RootInfo where
  id : Nat
  generation : Nat
  readonly : Bool
  snapshot : Bool
  deriving DecidableEq, Repr

/-- What it keeps of a root's back reference: the parent tree, and the directory
and the name in it. -/
structure Backref where
  parent : Nat
  dirid : Nat
  name : Text
  deriving DecidableEq, Repr

/-- The root items and back references of the root tree. -/
structure RootItems where
  items : List RootInfo
  backrefs : List (Nat × Backref)

def RootItems.visit : Visit RootItems := fun k d r =>
  if k.ty = ROOT_ITEM_KEY then do
    let snapshot ← snapshotBit d
    let generation ← u64At d 160
    let flags ← u64At d 208
    let info := { id := k.objectid, generation, readonly := flags % 2 ≠ 0, snapshot }
    return (true, { r with items := r.items ++ [info] })
  else if k.ty = ROOT_BACKREF_KEY then do
    let len ← u16At d 16
    let name := Utf8.fromUtf8Lossy (← bytes d 18 len)
    let ref := { parent := k.offset, dirid := ← u64At d 0, name }
    return (true, { r with backrefs := (k.objectid, ref) :: r.backrefs })
  else .ok (true, r)

/-- `Vec::dedup_by_key`: of neighbours with one id the first is kept. -/
def dedupById (last : Option Nat) : List RootInfo → List RootInfo
  | [] => []
  | x :: xs =>
    if last = some x.id then dedupById last xs else x :: dedupById (some x.id) xs

/-- What is known of the subvolumes so far. -/
structure Placed where
  paths : List (Nat × Text)
  out : List Subvol

namespace Fs

variable (fs : Fs β)

/-- One pass over the subvolumes not placed: those whose parent has a path get
theirs, and the others are left for the next pass. -/
def placeAll (backrefs : List (Nat × Backref)) :
    List RootInfo → Placed → FsM β (Placed × List RootInfo)
  | [], p => pure (p, [])
  | it :: its, p =>
    match backrefs.lookup it.id with
    | none => placeAll backrefs its p
    | some ref =>
      match p.paths.lookup ref.parent with
      | none => do
        let (p, next) ← placeAll backrefs its p
        pure (p, it :: next)
      | some parentPath => do
        let dir ← fs.pathInTree ref.parent ref.dirid
        let path := joinPath ([parentPath, dir, ref.name].filter (· ≠ []))
        let sub : Subvol := { id := it.id, parent := ref.parent, path := '/' :: path,
                              generation := it.generation, readonly := it.readonly,
                              snapshot := it.snapshot }
        placeAll backrefs its { paths := (it.id, path) :: p.paths, out := p.out ++ [sub] }

/-- Passes until nothing new is placed. Each one before the last leaves fewer,
so their number is fuel enough. -/
def placePasses (backrefs : List (Nat × Backref)) :
    (fuel : Nat) → (pending : List RootInfo) → Placed → FsM β Placed
  | 0, _, p => pure p
  | fuel + 1, pending, p =>
    if pending = [] then pure p
    else do
      let (p, next) ← fs.placeAll backrefs pending p
      if next.length = pending.length then pure p
      else placePasses backrefs fuel next p

def bySubvolId (a b : Subvol) : Prop := a.id ≤ b.id

instance : DecidableRel bySubvolId := fun a b => inferInstanceAs (Decidable (a.id ≤ b.id))

def subvols : FsM β (List Subvol) := do
  let (_, r) ← fs.walk fs.sb.root ⟨FIRST_FREE_OBJECTID, 0, 0⟩ ⟨LAST_FREE_OBJECTID, 255, U64_MAX⟩
    RootItems.visit ⟨[], []⟩
  let items := dedupById none r.items
  let p ← fs.placePasses r.backrefs items.length items ⟨[(FS_TREE_OBJECTID, [])], []⟩
  pure (p.out.insertionSort bySubvolId)

end Fs

end BtrfsPeek
