import BtrfsPeek.Fs.Lookup

/-!
# Opening a filesystem

`Fs::open`: the superblock of each device, the SYSTEM chunks that the newest
superblock carries, and with them the chunk tree.
-/

namespace BtrfsPeek

open Effect

variable {β : Type}

/-- What differs between the systems the program is built for. -/
structure Platform where
  windows : Bool
  deriving DecidableEq, Repr

/-- What to do when raw disks are denied. -/
def Platform.privilegeHint (p : Platform) : String :=
  if p.windows then
    "run from an elevated (Administrator) terminal, or install the helper once from one: `btrfs-peek helper install`"
  else "run as root, or add yourself to the `disk` group"

def openError (p : Platform) (path : String) (e : IoError) : Error :=
  if e.kind = .permissionDenied then
    .context s!"{path}: access denied; raw disks need privileges: {p.privilegeHint}" .accessDenied
  else .context s!"opening {path}" (.io e)

/-- What opens a device: the path names a file, or a disk the helper opens. -/
abbrev Opener (β : Type) := String → β → Except OsError (Backing β) × β

/-- `Device::open`. -/
def Device.open (opener : Opener β) (path : String) : EStateM IoError β (Device β) := fun s =>
  match opener path s with
  | (.ok backing, s) => .ok ⟨path, backing⟩ s
  | (.error e, s) => .error (e.at .device) s

/-- `.context(..)` of a computation. -/
def inContext {σ α : Type} (text : String) (x : EStateM Error σ α) : EStateM Error σ α := fun s =>
  match x s with
  | .ok a s => .ok a s
  | .error e s => .error (.context text e) s

/-- The devices opened so far, and the superblock of the highest generation. -/
structure Opened (β : Type) where
  devs : List (Nat × Device β)
  best : Option Superblock

namespace Fs

section devices

variable (p : Platform) (X : Crates) (opener : Opener β)

def openDevice (path : String) : FsM β (Device β) := fun s =>
  match Device.open opener path s.dev with
  | .ok d dev => .ok d { s with dev := dev }
  | .error e dev => .error (openError p path e) { s with dev := dev }

/-- `HashMap::insert` under the device's id, and the choice of superblock. -/
def addDevice (dev : Device β) (sb : Superblock) (o : Opened β) : Opened β where
  devs := (sb.devid, dev) :: o.devs
  best := match o.best with
    | none => some sb
    | some b => if sb.generation > b.generation then some sb else some b

def openDevices : List String → Opened β → FsM β (Opened β)
  | [], o => pure o
  | path :: paths, o => do
    let dev ← openDevice p opener path
    let raw ← inContext s!"{path}: reading superblock" (onDev (dev.read SUPER_OFFSET SUPER_SIZE))
    let sb ← lift (withContext s!"{path}: not a btrfs filesystem" (Superblock.parse X raw))
    lift (bailIf (∃ b ∈ o.best, b.fsid ≠ sb.fsid)
      (.msg s!"{path} belongs to a different filesystem than the other devices"))
    openDevices paths (addDevice dev sb o)

end devices

/-- The chunks of the superblock's array from `off` on. Each takes at least 17
bytes, so the array's length is fuel enough. -/
def sysChunks (arr : Bytes) : (fuel off : Nat) → (chunks : List Chunk) → Except Error (List Chunk)
  | 0, _, chunks => .ok chunks
  | fuel + 1, off, chunks =>
    if off < arr.length then do
      let key ← Key.parse arr off
      bailIf (key.ty ≠ CHUNK_ITEM_KEY) (.msg s!"corrupt sys_chunk_array: key type {key.ty}")
      let (chunk, used) ← Chunk.parse key.offset (arr.drop (off + KEY_SIZE))
      sysChunks arr fuel (off + KEY_SIZE + used) (insertChunk chunk chunks)
    else .ok chunks

theorem sysChunks_mapped (arr : Bytes) : ∀ (fuel off : Nat) {chunks cs : List Chunk}, Mapped chunks →
    sysChunks arr fuel off chunks = .ok cs → Mapped cs
  | 0, _, _, _, hm, h => Except.ok.inj h ▸ hm
  | fuel + 1, off, chunks, cs, hm, h => by
    unfold sysChunks at h
    split_ifs at h
    · obtain ⟨key, -, h⟩ := except_bind_ok.mp h
      obtain ⟨_, -, h⟩ := except_bind_ok.mp h
      obtain ⟨⟨c, used⟩, -, h⟩ := except_bind_ok.mp h
      exact sysChunks_mapped arr fuel _ hm.insertChunk h
    · exact Except.ok.inj h ▸ hm

/-- The map of the superblock's array. -/
def sysChunkMap (arr : Bytes) : Except Error { cs : List Chunk // Mapped cs } :=
  match h : sysChunks arr arr.length 0 [] with
  | .ok cs => .ok ⟨cs, sysChunks_mapped arr _ _ .nil h⟩
  | .error e => .error e

/-- The chunks of the chunk tree. -/
def findChunks (fs : Fs β) : FsM β (List Chunk) := do
  let (_, found) ← fs.walk fs.sb.chunkRoot ⟨0, 0, 0⟩ ⟨U64_MAX, 255, U64_MAX⟩
    (fun k d found => do
      if k.ty = CHUNK_ITEM_KEY then return (true, found ++ [(← Chunk.parse k.offset d).1])
      else return (true, found)) []
  return found

/-- `Fs::open`. The blocks read on the way stay in the cache. -/
def «open» (p : Platform) (X : Crates) (opener : Opener β) (paths : List String) : FsM β (Fs β) := do
  lift (bailIf (paths = [])
    (.msg "no device given: pass --device or set BTRFS_PEEK_DEVICE (run `btrfs-peek scan` to find one)"))
  let o ← openDevices p X opener paths ⟨[], none⟩
  match o.best with
  | none => throw (.msg "no device given")
  | some sb => do
    lift (bailIf (sb.incompatFlags &&& INCOMPAT_REFUSED ≠ 0)
      (.msg "filesystem uses extent-tree-v2 or raid-stripe-tree, which this tool cannot read correctly"))
    let chunks ← lift (sysChunkMap sb.sysChunkArray)
    let fs : Fs β := ⟨X, o.devs, sb, chunks.1, chunks.2⟩
    let found ← inContext "reading chunk tree" fs.findChunks
    pure { fs with
      chunks := found.foldl (fun cs c => insertChunk c cs) fs.chunks
      ascending := fs.ascending.insertChunks found }

end Fs

end BtrfsPeek
