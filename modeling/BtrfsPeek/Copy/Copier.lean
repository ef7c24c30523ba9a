import BtrfsPeek.Copy.Host
import Mathlib.Data.List.DropRight

/-!
# Copying onto the host

`copy.rs`. A directory's entries are copied in the order of their names; one that
fails is counted and costs the others nothing. The copier works on the filesystem
(`onFst`) and on what it keeps itself (`Work`), the host among it. The log in that is
not the program's: it records for the proofs what was done.
-/

namespace BtrfsPeek

open Effect

variable {β η φ : Type}

structure Options where
  /-- Whether the set of globs matches. -/
  exclude : Text → Bool
  force : Bool
  oneSubvolume : Bool
  noSnapshots : Bool
  /-- Whether there is a manifest. -/
  manifest : Bool

/-- The sum of sizes wraps; the others count what was gone through. -/
structure Report where
  files : Nat
  dirs : Nat
  symlinks : Nat
  bytes : Nat
  excluded : Nat
  /-- Entries that could not be copied. -/
  failures : Nat
  warnings : List String
  deriving DecidableEq, Repr

/-- What the copier does. A directory has its path below what is copied. -/
inductive CopyEvent (η : Type)
  /-- A directory is gone into. -/
  | entered (dir : Loc) (rel : Text)
  /-- The host made it, or it did not. -/
  | made (dir : Loc) (dest : HostPath)
  | denied (dir : Loc) (dest : HostPath)
  | listed (dir : Loc) (rel : Text) (dest : HostPath)
  /-- The turn of one of its entries. -/
  | visited (dir : Loc) (rel : Text) (e : Entry)
  /-- What is no directory is copied to `dest`, where `before` is the host then. -/
  | leaf (loc : Loc) (dest : HostPath) (before : η)
  /-- What came of an entry that was to be copied to `dest`. -/
  | tried (dir : Loc) (e : Entry) (src : Text) (dest : HostPath) (result : Except Error Unit)

/-- What the copier changes. -/
structure Work (η : Type) where
  host : η
  report : Report
  /-- Directories on the current recursion path. -/
  ancestors : List Loc
  log : List (CopyEvent η)

/-- Before anything is copied. -/
def Work.start (host : η) : Work η := ⟨host, ⟨0, 0, 0, 0, 0, 0, []⟩, [], []⟩

structure Copier (β η φ : Type) where
  fs : Fs β
  host : HostFs η φ
  opts : Options
  platform : Platform
  unicode : Unicode

abbrev CopyM (β η α : Type) := EStateM Error (FsState β × Work η) α

/-- An error of the host without context. -/
def hostError (e : OsError) : Error := .io (e.at .host)

/-- A call of the host. -/
def hostCall {α : Type} (wrap : OsError → Error) (x : HostOp η α) : EStateM Error (Work η) α :=
  fun w =>
    match x w.host with
    | .ok a h => .ok a { w with host := h }
    | .error e h => .error (wrap e) { w with host := h }

/-- A change of the report. -/
def report (f : Report → Report) : CopyM β η Unit :=
  onSnd (modify fun w => { w with report := f w.report })

def warn (text : String) : CopyM β η Unit :=
  report fun r => { r with warnings := r.warnings ++ [text] }

def record (e : CopyEvent η) : CopyM β η Unit :=
  onSnd (modify fun w => { w with log := w.log ++ [e] })

/-- Directory nesting past this is corruption, not a real tree. -/
def MAX_DEPTH : Nat := 256

/-- The name of the temporary file. -/
def partialName (dest : HostPath) : Text :=
  (dest.fileName.getD []) ++ ".btrfs-peek-partial".toList

namespace Copier

variable (c : Copier β η φ)

def manifest (loc : Loc) (src : Text) (dest : HostPath) (target : Option Text) : CopyM β η Unit :=
  if c.opts.manifest then do
    let i ← onFst (c.fs.inode loc)
    let line : ManifestLine :=
      { path := src, dest, ty := i.typeName,
        mode := String.ofList (Nat.toDigits 8 (i.mode &&& 0o7777)), uid := i.uid, gid := i.gid,
        size := i.size, mtime := i.mtimeSec, target }
    onSnd (hostCall (fun e => .json (e.at .host)) (c.host.manifestLine line))
    onSnd (hostCall hostError c.host.manifestNewline)
  else pure ()

/-- An mtime that cannot be set is let be. -/
def setMtime (loc : Loc) (dest : HostPath) : CopyM β η Unit := do
  match ← attempt (onFst (c.fs.inode loc)) with
  | .error _ => pure ()
  | .ok i => do
    let _ ← attempt (onSnd (hostCall hostError (c.host.setFileMtime dest i.mtimeSec i.mtimeNsec)))
    pure ()

/-- Seeks past a hole in steps, because the seek offset is signed. -/
def seekPast (file : φ) : (steps : Nat) → (left : Nat) → EStateM Error (Work η) Unit
  | 0, _ => pure ()
  | steps + 1, left =>
    if left > 0 then do
      let step := min left (2 ^ 63 - 1)
      hostCall hostError (c.host.seek file step)
      seekPast file steps (left - step)
    else pure ()

/-- What a file is read into: a hole stays one. -/
def writePiece (file : φ) : Sink (Work η)
  | .data d => hostCall hostError (c.host.writeAll file d)
  | .zeros n => c.seekPast file (n / (2 ^ 63 - 1) + 1) n

def writeFile (loc : Loc) (i : Inode) (tmp : HostPath) : CopyM β η Unit := do
  let file ← onSnd (hostCall (fun e => .context s!"creating {tmp.display}" (hostError e))
    (c.host.create tmp))
  c.fs.readRange loc 0 U64_MAX (c.writePiece file)
  onSnd (hostCall hostError (c.host.setLen file i.size))
  if c.platform.windows = false then
    onSnd (hostCall hostError (c.host.setPermissions file (i.mode &&& 0o7777)))
  onSnd (hostCall (fun e => .context s!"flushing {tmp.display}" (hostError e))
    (c.host.syncAll file))

/-- Whether a symlink's target is a directory of the source filesystem. -/
def targetIsDir (target src : Text) : CopyM β η Bool := do
  let srcDir := if '/' ∈ src then (src.rdropWhile (· ≠ '/')).dropLast else ['/']
  let resolved := if target.head? = some '/' then target else srcDir ++ '/' :: target
  match ← attempt (onFst (c.fs.resolve resolved)) with
  | .error _ => pure false
  | .ok loc =>
    match ← attempt (onFst (c.fs.inode loc)) with
    | .error _ => pure false
    | .ok i => pure i.isDir

def symlink (target : Text) (dest : HostPath) (src : Text) : CopyM β η Unit := do
  if c.platform.windows then
    let isDir ← c.targetIsDir target src
    let target := target.map fun ch => if ch = '/' then '\\' else ch
    onSnd (hostCall hostError (c.host.symlink (if isDir then .dir else .file) target dest))
  else onSnd (hostCall hostError (c.host.symlink .unix target dest))

def copySymlink (loc : Loc) (src : Text) (dest : HostPath) : CopyM β η Unit := do
  let target := Utf8.fromUtf8Lossy (← onFst (c.fs.readSymlinkTarget loc))
  c.manifest loc src dest (some target)
  match ← attempt (c.symlink target dest src) with
  | .error e =>
    warn s!"{String.ofList src}: symlink to {c.fs.crates.debugStr target} not created ({e.text}); it is recorded in the manifest"
  | .ok () => report fun r => { r with symlinks := r.symlinks + 1 }

/-- Writes to a temporary name and renames into place. -/
def copyFile (loc : Loc) (i : Inode) (src : Text) (dest : HostPath) : CopyM β η Unit := do
  let tmp := dest.withFileName c.platform (partialName dest)
  match ← attempt (c.writeFile loc i tmp) with
  | .error e => do
    let _ ← attempt (onSnd (hostCall hostError (c.host.removeFile tmp)))
    throw e
  | .ok () => do
    onSnd (hostCall (fun e => .context s!"moving the finished file into {dest.display}" (hostError e))
      (c.host.rename tmp dest))
    c.setMtime loc dest
    report fun r => { r with files := r.files + 1, bytes := wadd r.bytes i.size }
    c.manifest loc src dest none

/-- What is at `dest` already is removed, if that was asked for. -/
def makeWay (dest : HostPath) : CopyM β η Unit := do
  match ← attempt (onSnd (hostCall hostError (c.host.symlinkMetadata dest))) with
  | .error _ => pure ()
  | .ok _ => do
    lift (bailIf (c.opts.force = false)
      (.msg s!"{dest.display} already exists (use --force to overwrite)"))
    onSnd (hostCall (fun e => .context s!"replacing {dest.display}" (hostError e))
      (c.host.removeFile dest))

def copyLeaf (loc : Loc) (src : Text) (dest : HostPath) : CopyM β η Unit := do
  record (.leaf loc dest (← MonadState.get).2.host)
  let i ← onFst (c.fs.inode loc)
  c.makeWay dest
  if i.isSymlink then c.copySymlink loc src dest
  else if i.isFile = false then warn s!"{String.ofList src}: skipped {i.typeName}"
  else c.copyFile loc i src dest

/-! ## Directories -/

/-- Names are compared as the host does. -/
def fold (t : Text) : Text := if c.platform.windows then c.unicode.toLowercase t else t

/-- `base`, numbered until it is not taken. Among one more than are taken a name is
free, so their number is fuel enough. -/
def number (taken : List Text) (base : Text) : (fuel n : Nat) → (host : Text) → Text
  | 0, _, host => host
  | fuel + 1, n, host =>
    if c.fold host ∈ taken then
      number taken base fuel (n + 1) (base ++ '~' :: (toString n).toList)
    else host

/-- The name that an entry gets on the host. -/
def chosenName (taken : List Text) (e : Entry) : Text :=
  let base := hostName c.platform e.nameLossy
  c.number taken base (taken.length + 1) 1 base

/-- Whether it is not the entry's own. -/
def renamed (taken : List Text) (e : Entry) : Bool :=
  let base := hostName c.platform e.nameLossy
  Utf8.toUtf8 base ≠ e.name || c.fold base ∈ taken

/-- `rel`, the path below what is copied, of an entry of the directory at `rel`. -/
def childRel (rel name : Text) : Text := if rel = [] then name else rel ++ '/' :: name

def excludes (rel name : Text) : Bool := c.opts.exclude (childRel rel name) || c.opts.exclude name

/-- Whether an entry is another subvolume that is not descended into. -/
def skips (entry : Entry) (dir : Loc) : CopyM β η Bool :=
  if entry.subvol = false ∨ Fs.isPlaceholder entry.loc then pure false
  else if c.opts.oneSubvolume ∧ entry.loc.tree ≠ dir.tree then pure true
  else if c.opts.noSnapshots then onFst (c.fs.isSnapshot entry.loc.tree)
  else pure false

/-- How a directory is copied: its place, its path, its path below what is copied,
and where to. -/
abbrev Recurse (β η : Type) := Loc → (src rel : Text) → (dest : HostPath) → CopyM β η Unit

def copyEntry (recurse : Recurse β η) (entry : Entry) (dir : Loc) (src rel : Text)
    (dest : HostPath) : CopyM β η Unit := do
  if ← c.skips entry dir then report fun r => { r with excluded := r.excluded + 1 }
  else
    let i ← onFst (c.fs.inode entry.loc)
    if i.isDir then recurse entry.loc src rel dest
    else c.copyLeaf entry.loc src dest

/-- One unreadable file must not cost the rest of the tree. -/
def tryEntry (recurse : Recurse β η) (entry : Entry) (dir : Loc) (src rel : Text)
    (dest : HostPath) : CopyM β η Unit := do
  let r ← attempt (c.copyEntry recurse entry dir src rel dest)
  record (.tried dir entry src dest r)
  match r with
  | .ok () => pure ()
  | .error e =>
    report fun r =>
      { r with
        failures := r.failures + 1
        warnings := r.warnings ++ [s!"{String.ofList src}: {e.display}"] }

/-- The entries of `dir` one by one; `taken` are the folded names given so far. -/
def copyEntries (recurse : Recurse β η) (dir : Loc) (src rel : Text) (dest : HostPath) :
    List Entry → (taken : List Text) → CopyM β η Unit
  | [], _ => pure ()
  | e :: es, taken => do
    record (.visited dir rel e)
    let name := e.nameLossy
    let childSrc := src ++ '/' :: name
    if c.excludes rel name then
      report fun r => { r with excluded := r.excluded + 1 }
      copyEntries recurse dir src rel dest es taken
    else
      let host := c.chosenName taken e
      if c.renamed taken e then
        warn s!"{String.ofList childSrc}: written as {c.fs.crates.debugStr host} (the original name is not representable here)"
      let childDest := dest.join c.platform host
      -- `hostName` should make this impossible.
      if childDest.parent ≠ some dest then
        report fun r =>
          { r with
            failures := r.failures + 1
            warnings := r.warnings ++
              [s!"{String.ofList childSrc}: refusing to write outside {dest.display}"] }
      else c.tryEntry recurse e dir childSrc (childRel rel name) childDest
      copyEntries recurse dir src rel dest es (c.fold host :: taken)

/-- Makes the directory on the host, unless a symlink is in its place. -/
def enter (dir : Loc) (src : Text) (dest : HostPath) : CopyM β η Unit := do
  match ← attempt (onSnd (hostCall hostError (c.host.symlinkMetadata dest))) with
  | .error _ => pure ()
  | .ok isSymlink =>
    lift (bailIf (isSymlink = true)
      (.msg s!"{dest.display} is a symlink; refusing to write through it"))
  onSnd (hostCall (fun e => .context s!"creating {dest.display}" (hostError e))
    (c.host.createDirAll dest))
  report fun r => { r with dirs := r.dirs + 1 }
  c.manifest dir src dest none

def copyDirInner (recurse : Recurse β η) (dir : Loc) (src rel : Text) (dest : HostPath) :
    CopyM β η Unit := do
  match ← attempt (c.enter dir src dest) with
  | .error e => do
    record (.denied dir dest)
    throw e
  | .ok () => do
    record (.made dir dest)
    let es ← onFst (c.fs.readdir dir)
    record (.listed dir rel dest)
    c.copyEntries recurse dir src rel dest es []
    c.setMtime dir dest

/-- The directory at depth `MAX_DEPTH + 1 - left`. -/
def copyDir : (left : Nat) → Recurse β η
  | 0, dir, _, rel, _ => do
    record (.entered dir rel)
    throw (.msg s!"directory nesting deeper than {MAX_DEPTH}; the filesystem is corrupt")
  | left + 1, dir, src, rel, dest => do
    record (.entered dir rel)
    let w ← MonadState.get
    -- A directory that contains itself would otherwise recurse forever.
    lift (bailIf (dir ∈ w.2.ancestors)
      (.msg "directory loops back to one of its own parents; skipped"))
    onSnd (modify fun w => { w with ancestors := dir :: w.ancestors })
    let r ← attempt (c.copyDirInner (copyDir left) dir src rel dest)
    onSnd (modify fun w => { w with ancestors := w.ancestors.erase dir })
    lift r

def copy (src : Loc) (srcPath : Text) (dest : HostPath) : CopyM β η Unit := do
  let i ← onFst (c.fs.inode src)
  if i.isDir then c.copyDir (MAX_DEPTH + 1) src (srcPath.rdropWhile (· = '/')) [] dest
  else
    match ← attempt (onSnd (hostCall hostError (c.host.isDir dest))) with
    | .ok true =>
      c.copyLeaf src srcPath (dest.join c.platform (hostName c.platform (srcPath.rtakeWhile (· ≠ '/'))))
    | _ => c.copyLeaf src srcPath dest

end Copier

end BtrfsPeek
