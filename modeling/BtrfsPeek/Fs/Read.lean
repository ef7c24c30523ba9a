import BtrfsPeek.Fs.Walk

/-!
# Inodes, extents and file reads

`Fs::tree` to `Fs::read_to_vec`, but for the directories. A range read hands its
pieces to a sink, which keeps a state of its own (`τ`) beside the filesystem's:
the file a copy writes, or the bytes read so far.
-/

namespace BtrfsPeek

open Effect

variable {β τ : Type}

/-- What a range read emits: bytes, or the length of a run of zeros. -/
inductive Piece
  | data (d : Bytes)
  | zeros (n : Nat)
  deriving DecidableEq, Repr

/-- The bytes a piece stands for. -/
def Piece.bytes : Piece → Bytes
  | .data d => d
  | .zeros n => List.replicate n 0

/-- What a range read does with a piece. -/
abbrev Sink (τ : Type) := Piece → EStateM Error τ Unit

/-- A sink that collects. -/
def collect : Sink Bytes := fun p => modify (· ++ p.bytes)

/-- What `emit` reads the bytes of a piece with: its place in the file and its
length. -/
abbrev Reader (β : Type) := Nat → Nat → FsM β Bytes

/-- A piece of a range read is at most this long. -/
def BLOCK : Nat := 2 ^ 20

/-- The bytes from `pos` to `hi`, in blocks. Each round moves `pos` on, so the
distance is fuel enough. -/
def emitData (sink : Sink τ) (read : Reader β) (hi : Nat) :
    (fuel pos : Nat) → EStateM Error (FsState β × τ) Unit
  | 0, _ => pure ()
  | fuel + 1, pos =>
    if pos < hi then do
      let n := min (hi - pos) BLOCK
      let d ← onFst (read pos n)
      onSnd (sink (.data d))
      emitData sink read hi fuel (pos + n)
    else pure ()

/-- Zeros from `pos` to `lo`, if there is a gap. -/
def emitGap (sink : Sink τ) (pos lo : Nat) : EStateM Error (FsState β × τ) Unit :=
  if pos < lo then onSnd (sink (.zeros (lo - pos))) else pure ()

/-- The bytes of `[lo, hi)`: zeros, where nothing reads them. -/
def emitBytes (sink : Sink τ) (lo hi : Nat) : Option (Reader β) → EStateM Error (FsState β × τ) Unit
  | none => onSnd (sink (.zeros (hi - lo)))
  | some read => emitData sink read hi (hi - lo) lo

/-- Emits what is still wanted of `[lo, hi)`, after the gap before it. The
answer is the new position. -/
def emit (sink : Sink τ) (stop lo hi pos : Nat) (data : Option (Reader β)) :
    EStateM Error (FsState β × τ) Nat :=
  let lo := max lo pos
  let hi := min hi stop
  if lo ≥ hi then pure pos
  else do
    emitGap sink pos lo
    emitBytes sink lo hi data
    pure hi

namespace Fs

variable (fs : Fs β)

/-- The newest root item of tree `id`: a snapshot's is keyed by its creation
transid. -/
def rootItem (id : Nat) : FsM β (Option Bytes) := do
  let (_, item) ← fs.walk fs.sb.root ⟨id, ROOT_ITEM_KEY, 0⟩ ⟨id, ROOT_ITEM_KEY, U64_MAX⟩
    (fun _ d _ => .ok (true, some d)) none
  return item

/-- A tree's root, without the cache. -/
def fetchTree (id : Nat) : FsM β TreeRoot := do
  match ← fs.rootItem id with
  | none => throw (.msg s!"subvolume tree {id} does not exist")
  | some item => return { bytenr := ← lift (u64At item 176), rootDirid := ← lift (u64At item 168) }

def tree (id : Nat) : FsM β TreeRoot := do
  let s ← MonadState.get
  match s.roots.lookup id with
  | some r => pure r
  | none => do
    let root ← fs.fetchTree id
    modify fun s => { s with roots := (id, root) :: s.roots }
    pure root

def root : FsM β Loc := do
  let r ← fs.tree FS_TREE_OBJECTID
  return { tree := FS_TREE_OBJECTID, ino := r.rootDirid }

/-- The empty directory that stands in for a subvolume nested in a snapshot. -/
def isPlaceholder (loc : Loc) : Prop := loc.tree = 0

instance (loc : Loc) : Decidable (isPlaceholder loc) := inferInstanceAs (Decidable (_ = _))

def placeholderInode : Inode :=
  { size := 0, nlink := 1, uid := 0, gid := 0, mode := 0o040755, mtimeSec := 0, mtimeNsec := 0 }

def inode (loc : Loc) : FsM β Inode :=
  if isPlaceholder loc then pure placeholderInode
  else do
    let r ← fs.tree loc.tree
    match ← fs.get r.bytenr ⟨loc.ino, INODE_ITEM_KEY, 0⟩ with
    | none => throw (.msg s!"inode {loc.ino} missing from tree {loc.tree}")
    | some item => lift (Inode.parse item)

def extents (loc : Loc) : FsM β (List Extent) := do
  let r ← fs.tree loc.tree
  let (_, out) ← fs.walk r.bytenr ⟨loc.ino, EXTENT_DATA_KEY, 0⟩ ⟨loc.ino, EXTENT_DATA_KEY, U64_MAX⟩
    (fun k d out => do return (true, out ++ [← Extent.parse k.offset d])) []
  return out

/-- An extent's decompressed bytes, without the cache. -/
def decompressExtent (diskBytenr diskNumBytes algo ramBytes : Nat) : FsM β Bytes := do
  lift (bailIf (ramBytes > 2 ^ 30 ∨ diskNumBytes > 2 ^ 30)
    (.msg s!"implausible compressed extent ({diskNumBytes} -> {ramBytes} bytes)"))
  let raw ← fs.readLogical diskBytenr diskNumBytes
  lift (decompress fs.crates algo raw ramBytes fs.sb.sectorsize)

/-- The cached extent, if it is the one at `diskBytenr`. -/
def cachedExtent (diskBytenr : Nat) (s : FsState β) : Option Bytes :=
  match s.lastExtent with
  | some (addr, data) => if addr = diskBytenr then some data else none
  | none => none

def compressedExtent (diskBytenr diskNumBytes algo ramBytes : Nat) : FsM β Bytes := do
  let s ← MonadState.get
  match cachedExtent diskBytenr s with
  | some data => pure data
  | none => do
    let plain ← fs.decompressExtent diskBytenr diskNumBytes algo ramBytes
    modify fun s => { s with lastExtent := some (diskBytenr, plain) }
    pure plain

/-- Bytes of an inline extent; `emit` asks for no others. -/
def readInline (plain : Bytes) (lo : Nat) : Reader β := fun pos n =>
  pure (plain.slice (pos - lo) n)

/-- Bytes of an uncompressed extent whose data starts at `base`. -/
def readPlain (base lo : Nat) : Reader β := fun pos n =>
  match checkedAdd base (pos - lo) with
  | none => throw (.msg "extent address overflows")
  | some addr => fs.readLogical addr n

/-- Bytes of a decompressed extent from `offset` on; the sums wrap. -/
def readCompressed (plain : Bytes) (offset lo : Nat) : Reader β := fun pos n =>
  let s := wadd offset (pos - lo)
  if s ≤ wadd s n ∧ wadd s n ≤ plain.length then pure (plain.slice s n)
  else throw (.msg "extent reference outside its decompressed data")

/-- The payload of an inline extent. The first check keeps a corrupt length
away from the decoder. -/
def inlineData (ext : Extent) (raw : Bytes) : Except Error Bytes := do
  bailIf (ext.ramBytes > fs.sb.nodesize)
    (.msg s!"inline extent claims {ext.ramBytes} bytes, more than the {fs.sb.nodesize}-byte leaf holding it")
  if ext.compression = 0 then return raw
  else decompressInline fs.crates ext.compression raw ext.ramBytes fs.sb.sectorsize

/-- Emits what is still wanted of one extent. -/
def emitExtent (sink : Sink τ) (stop : Nat) (ext : Extent) (pos : Nat) :
    EStateM Error (FsState β × τ) Nat :=
  let lo := ext.fileOff
  let hi := satAdd ext.fileOff ext.len
  match ext.kind with
  | .prealloc => emit sink stop lo hi pos none
  | .inline raw => do
    let plain ← lift (fs.inlineData ext raw)
    emit sink stop lo (wadd lo plain.length) pos (some (readInline plain lo))
  | .regular diskBytenr diskNumBytes offset =>
    if diskBytenr = 0 then emit sink stop lo hi pos none
    else if ext.compression = 0 then
      match checkedAdd diskBytenr offset with
      | none => throw (.msg s!"extent address {diskBytenr}+{offset} overflows")
      | some base => emit sink stop lo hi pos (some (fs.readPlain base lo))
    else do
      let plain ← onFst (fs.compressedExtent diskBytenr diskNumBytes ext.compression ext.ramBytes)
      emit sink stop lo hi pos (some (readCompressed plain offset lo))

/-- Emits the extents in turn, from `pos` on, until one begins past the end. -/
def emitExtents (sink : Sink τ) (stop : Nat) :
    List Extent → (pos : Nat) → EStateM Error (FsState β × τ) Nat
  | [], pos => pure pos
  | ext :: exts, pos =>
    if pos ≥ stop ∨ ext.fileOff ≥ stop then pure pos
    else if satAdd ext.fileOff ext.len ≤ pos then emitExtents sink stop exts pos
    else do
      let pos ← fs.emitExtent sink stop ext pos
      emitExtents sink stop exts pos

/-- Emits `[start, stop)` of a file of these extents, the trailing hole
included. -/
def emitFile (sink : Sink τ) (stop : Nat) (exts : List Extent) (start : Nat) :
    EStateM Error (FsState β × τ) Unit := do
  let pos ← fs.emitExtents sink stop exts start
  let _ ← emit sink stop pos stop pos none
  pure ()

/-- What a file read looks up first. -/
def layout (loc : Loc) : FsM β (Inode × List Extent) := do
  let i ← fs.inode loc
  let exts ← fs.extents loc
  pure (i, exts)

/-- Streams `[start, stop)` of a file to `sink`, clamped to the file size. -/
def readRange (loc : Loc) (start stop : Nat) (sink : Sink τ) :
    EStateM Error (FsState β × τ) Unit := do
  let (i, exts) ← onFst (fs.layout loc)
  fs.emitFile sink (min stop i.size) exts start

def readToVec (loc : Loc) (cap : Nat) : FsM β Bytes := do
  let ((), out) ← withLocal [] (fs.readRange loc 0 cap collect)
  return out

/-- The kernel's cap on a symlink's target. -/
def MAX_TARGET : Nat := 4096

def readSymlinkTarget (loc : Loc) : FsM β Bytes := do
  let i ← fs.inode loc
  lift (bailIf (i.size > MAX_TARGET)
    (.msg s!"symlink claims a {i.size}-byte target, past the {MAX_TARGET}-byte maximum"))
  fs.readToVec loc i.size

end Fs

end BtrfsPeek
