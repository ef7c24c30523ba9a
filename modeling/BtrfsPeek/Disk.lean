import BtrfsPeek.Crates
import BtrfsPeek.Error
import BtrfsPeek.Lib.Effect
import Mathlib.Order.Defs.LinearOrder
import Mathlib.Tactic.Common

/-!
# On-disk structures

The parsers of `disk.rs`. Everything is little-endian and read at an offset,
with a bounds check: `bytes` fails where the string is too short, and every
parser fails where one of its reads does. Numbers are naturals; the readers
bound them (`u64At_lt`).
-/

namespace BtrfsPeek

open Effect

def SUPER_OFFSET : Nat := 0x10000
def SUPER_SIZE : Nat := 4096
/-- `_BHRfS_M`. -/
def MAGIC : Bytes := [0x5F, 0x42, 0x48, 0x52, 0x66, 0x53, 0x5F, 0x4D]
def HEADER_SIZE : Nat := 101
def KEY_SIZE : Nat := 17
def INODE_ITEM_SIZE : Nat := 160

def FS_TREE_OBJECTID : Nat := 5
def FIRST_FREE_OBJECTID : Nat := 256
def LAST_FREE_OBJECTID : Nat := 2 ^ 64 - 1 - 256

def INODE_ITEM_KEY : Nat := 1
def INODE_REF_KEY : Nat := 12
def DIR_ITEM_KEY : Nat := 84
def DIR_INDEX_KEY : Nat := 96
def EXTENT_DATA_KEY : Nat := 108
def ROOT_ITEM_KEY : Nat := 132
def ROOT_BACKREF_KEY : Nat := 144
def ROOT_REF_KEY : Nat := 156
def CHUNK_ITEM_KEY : Nat := 228

def FT_DIR : Nat := 2
def FT_SYMLINK : Nat := 7

def BLOCK_GROUP_RAID0 : Nat := 2 ^ 3
def BLOCK_GROUP_RAID10 : Nat := 2 ^ 6
def BLOCK_GROUP_RAID5 : Nat := 2 ^ 7
def BLOCK_GROUP_RAID6 : Nat := 2 ^ 8

/-- Features that change how file data is located, which are refused:
extent-tree-v2 and raid-stripe-tree. -/
def INCOMPAT_REFUSED : Nat := 2 ^ 13 ||| 2 ^ 14

/-- `u64::MAX`. -/
def U64_MAX : Nat := 2 ^ 64 - 1

/-! ## Reading at an offset -/

/-- The `len` bytes at `off`. The sum is checked in the source too; it can only
overflow past the end of every slice. -/
def bytes (b : Bytes) (off len : Nat) : Except Error Bytes :=
  if off + len ≤ b.length then .ok (b.slice off len)
  else .error (.msg s!"corrupt structure: wanted {len} bytes at offset {off}, have {b.length}")

/-- A number of `w` bytes. -/
def uintAt (w : Nat) (b : Bytes) (off : Nat) : Except Error Nat := do
  let s ← bytes b off w
  return Bytes.ofLE s

def u8At (b : Bytes) (off : Nat) : Except Error Nat := uintAt 1 b off
def u16At (b : Bytes) (off : Nat) : Except Error Nat := uintAt 2 b off
def u32At (b : Bytes) (off : Nat) : Except Error Nat := uintAt 4 b off
def u64At (b : Bytes) (off : Nat) : Except Error Nat := uintAt 8 b off

theorem bytes_ok_iff {b s : Bytes} {off len : Nat} :
    bytes b off len = .ok s ↔ off + len ≤ b.length ∧ s = b.slice off len := by
  unfold bytes
  split_ifs with h
  · exact ⟨fun e => ⟨h, (Except.ok.inj e).symm⟩, fun e => by rw [e.2]⟩
  · exact ⟨nofun, fun e => absurd e.1 h⟩

theorem bytes_of_le {b : Bytes} {off len : Nat} (h : off + len ≤ b.length) :
    bytes b off len = .ok (b.slice off len) := if_pos h

theorem uintAt_ok_iff {w : Nat} {b : Bytes} {off n : Nat} :
    uintAt w b off = .ok n ↔ off + w ≤ b.length ∧ n = Bytes.ofLE (b.slice off w) := by
  unfold uintAt bytes
  split_ifs with h
  · exact ⟨fun e => ⟨h, (Except.ok.inj e).symm⟩, fun e => by rw [e.2]; rfl⟩
  · exact ⟨nofun, fun e => absurd e.1 h⟩

theorem uintAt_of_le {w : Nat} {b : Bytes} {off : Nat} (h : off + w ≤ b.length) :
    uintAt w b off = .ok (Bytes.ofLE (b.slice off w)) := uintAt_ok_iff.mpr ⟨h, rfl⟩

theorem bytes_of_hasAt {b s : Bytes} {off : Nat} (h : b.HasAt off s) :
    bytes b off s.length = .ok s := by
  rw [bytes_of_le h.le, h.slice_eq]

theorem uintAt_of_hasAt {w n : Nat} {b : Bytes} {off : Nat} (h : b.HasAt off (Bytes.toLE w n))
    (hn : n < 256 ^ w) : uintAt w b off = .ok n := by
  have hle := h.le
  have hs := h.slice_eq
  rw [Bytes.length_toLE] at hle hs
  rw [uintAt_of_le hle, hs, Bytes.ofLE_toLE_of_lt hn]

theorem hasAt_of_uintAt {w n : Nat} {b : Bytes} {off : Nat} (h : uintAt w b off = .ok n) :
    b.HasAt off (Bytes.toLE w n) := by
  obtain ⟨hle, rfl⟩ := uintAt_ok_iff.mp h
  have htoLE := Bytes.toLE_ofLE (b.slice off w)
  rw [Bytes.length_slice_of_le hle] at htoLE
  rw [htoLE]
  exact Bytes.hasAt_slice hle

/-- A number of `w` bytes is below `256 ^ w`. -/
theorem uintAt_lt {w : Nat} {b : Bytes} {off n : Nat} (h : uintAt w b off = .ok n) : n < 256 ^ w := by
  obtain ⟨hl, rfl⟩ := uintAt_ok_iff.mp h
  have := Bytes.ofLE_lt (b.slice off w)
  rwa [Bytes.length_slice_of_le hl] at this

theorem u64At_lt {b : Bytes} {off n : Nat} (h : u64At b off = .ok n) : n < 2 ^ 64 := uintAt_lt h

/-! ## Keys -/

/-- A key, ordered by its fields in turn. -/
structure Key where
  objectid : Nat
  ty : Nat
  offset : Nat
  deriving DecidableEq, Repr

namespace Key

instance : LT Key where
  lt a b := a.objectid < b.objectid ∨
    a.objectid = b.objectid ∧ (a.ty < b.ty ∨ a.ty = b.ty ∧ a.offset < b.offset)

instance : LE Key where
  le a b := a.objectid < b.objectid ∨
    a.objectid = b.objectid ∧ (a.ty < b.ty ∨ a.ty = b.ty ∧ a.offset ≤ b.offset)

theorem lt_def {a b : Key} : a < b ↔ a.objectid < b.objectid ∨
    a.objectid = b.objectid ∧ (a.ty < b.ty ∨ a.ty = b.ty ∧ a.offset < b.offset) := Iff.rfl

theorem le_def {a b : Key} : a ≤ b ↔ a.objectid < b.objectid ∨
    a.objectid = b.objectid ∧ (a.ty < b.ty ∨ a.ty = b.ty ∧ a.offset ≤ b.offset) := Iff.rfl

instance (a b : Key) : Decidable (a < b) := decidable_of_iff' _ lt_def
instance (a b : Key) : Decidable (a ≤ b) := decidable_of_iff' _ le_def

instance : LinearOrder Key where
  le_refl a := by rw [le_def]; omega
  le_trans a b c h₁ h₂ := by rw [le_def] at *; omega
  lt_iff_le_not_ge a b := by rw [lt_def, le_def, le_def]; omega
  le_antisymm a b h₁ h₂ := by
    rw [le_def] at *
    cases a; cases b
    simp only [mk.injEq] at *
    omega
  le_total a b := by rw [le_def, le_def]; omega
  toDecidableLE := inferInstance
  toDecidableEq := inferInstance
  toDecidableLT := inferInstance

def parse (b : Bytes) (off : Nat) : Except Error Key := do
  return { objectid := ← u64At b off, ty := ← u8At b (off + 8), offset := ← u64At b (off + 9) }

/-- The key as it is stored. -/
def bytes (k : Key) : Bytes := Bytes.toLE 8 k.objectid ++ (Bytes.toLE 1 k.ty ++ Bytes.toLE 8 k.offset)

/-- The fields are of their widths. -/
def Fits (k : Key) : Prop := k.objectid < 2 ^ 64 ∧ k.ty < 2 ^ 8 ∧ k.offset < 2 ^ 64

instance (k : Key) : Decidable k.Fits := inferInstanceAs (Decidable (_ ∧ _ ∧ _))

@[simp] theorem length_bytes (k : Key) : k.bytes.length = KEY_SIZE := by simp [bytes, KEY_SIZE]

theorem parse_of_hasAt {b : Bytes} {off : Nat} {k : Key} (h : b.HasAt off k.bytes) (hk : k.Fits) :
    parse b off = .ok k := by
  have h₁ := uintAt_of_hasAt h.left hk.1
  have h₂ := uintAt_of_hasAt h.right.left hk.2.1
  have h₃ := uintAt_of_hasAt h.right.right hk.2.2
  simp only [Bytes.length_toLE, Nat.add_assoc, Nat.reduceAdd] at h₂ h₃
  simp only [parse, u64At, u8At, h₁, h₂, h₃]
  rfl

end Key

/-! ## The superblock -/

/-- A power of two within bounds: what a sector or a node is long. -/
def SizeOk (lo hi n : Nat) : Prop := 2 ^ n.log2 = n ∧ lo ≤ n ∧ n ≤ hi

instance (lo hi n : Nat) : Decidable (SizeOk lo hi n) :=
  inferInstanceAs (Decidable (_ ∧ _ ∧ _))

/-- The superblock. `parse` makes one only with sizes it has checked. -/
structure Superblock where
  fsid : Bytes
  generation : Nat
  root : Nat
  chunkRoot : Nat
  logRoot : Nat
  totalBytes : Nat
  bytesUsed : Nat
  rootDirObjectid : Nat
  numDevices : Nat
  sectorsize : Nat
  nodesize : Nat
  incompatFlags : Nat
  csumType : Nat
  devid : Nat
  label : Text
  sysChunkArray : Bytes
  sectorsize_ok : SizeOk 512 65536 sectorsize
  nodesize_ok : SizeOk 4096 65536 nodesize

namespace Superblock

/-- The checksum test, for the one checksum type it can make. -/
def checkSum (X : Crates) (csumType : Nat) (b : Bytes) : Except Error Unit :=
  if csumType = 0 then do
    let want ← u32At b 0
    let got := X.crc32c (← bytes b 32 (SUPER_SIZE - 32))
    bailIf (want ≠ got) (.msg "superblock checksum mismatch")
  else .ok ()

def parse (X : Crates) (b : Bytes) : Except Error Superblock := do
  let magic ← bytes b 0x40 8
  bailIf (magic ≠ MAGIC) (.msg "no btrfs magic")
  let csumType ← u16At b 0xc4
  checkSum X csumType b
  let sysLen ← u32At b 0xa0
  bailIf (sysLen > 2048) (.msg s!"corrupt superblock: sys_chunk_array_size {sysLen}")
  let labelRaw ← bytes b 0x12b 256
  let fsid ← bytes b 0x20 16
  let generation ← u64At b 0x48
  let root ← u64At b 0x50
  let chunkRoot ← u64At b 0x58
  let logRoot ← u64At b 0x60
  let totalBytes ← u64At b 0x70
  let bytesUsed ← u64At b 0x78
  let rootDirObjectid ← u64At b 0x80
  let numDevices ← u64At b 0x88
  let sectorsize ← u32At b 0x90
  let nodesize ← u32At b 0x94
  let incompatFlags ← u64At b 0xbc
  let devid ← u64At b 0xc9
  let label := Utf8.fromUtf8Lossy (labelRaw.takeWhile (· ≠ 0))
  let sysChunkArray ← bytes b 0x32b sysLen
  if hs : SizeOk 512 65536 sectorsize then
    if hn : SizeOk 4096 65536 nodesize then
      return { fsid, generation, root, chunkRoot, logRoot, totalBytes, bytesUsed, rootDirObjectid,
               numDevices, sectorsize, nodesize, incompatFlags, csumType, devid, label,
               sysChunkArray, sectorsize_ok := hs, nodesize_ok := hn }
    else throw (.msg s!"corrupt superblock: nodesize {nodesize}")
  else throw (.msg s!"corrupt superblock: sectorsize {sectorsize}")

def csumName (sb : Superblock) : String :=
  match sb.csumType with
  | 0 => "crc32c"
  | 1 => "xxhash64"
  | 2 => "sha256"
  | 3 => "blake2b"
  | _ => "unknown"

end Superblock

/-! ## Chunks -/

structure Chunk where
  start : Nat
  length : Nat
  ty : Nat
  /-- Device id and physical offset of each stripe. -/
  stripes : List (Nat × Nat)
  deriving DecidableEq, Repr

namespace Chunk

/-- The stripes from the `i`-th on, of which there are `count`. -/
def stripesAt (b : Bytes) : (count i : Nat) → Except Error (List (Nat × Nat))
  | 0, _ => .ok []
  | count + 1, i => do
    let o := 48 + i * 32
    let stripe := (← u64At b o, ← u64At b (o + 8))
    return stripe :: (← stripesAt b count (i + 1))

/-- A chunk item and the number of bytes it occupied. -/
def parse (start : Nat) (b : Bytes) : Except Error (Chunk × Nat) := do
  let numStripes ← u16At b 44
  bailIf (numStripes = 0) (.msg s!"corrupt chunk at {start}: zero stripes")
  let stripes ← stripesAt b numStripes 0
  let chunk := { start, length := ← u64At b 0, ty := ← u64At b 24, stripes }
  return (chunk, 48 + numStripes * 32)

/-- A bit of the chunk's type. -/
def has (c : Chunk) (bit : Nat) : Bool := c.ty &&& bit != 0

def profile (c : Chunk) : String :=
  if c.has BLOCK_GROUP_RAID0 then "raid0"
  else if c.has (2 ^ 4) then "raid1"
  else if c.has (2 ^ 5) then "dup"
  else if c.has BLOCK_GROUP_RAID10 then "raid10"
  else if c.has BLOCK_GROUP_RAID5 then "raid5"
  else if c.has BLOCK_GROUP_RAID6 then "raid6"
  else if c.has (2 ^ 9) then "raid1c3"
  else if c.has (2 ^ 10) then "raid1c4"
  else "single"

def kind (c : Chunk) : String :=
  match c.ty &&& 7 with
  | 1 => "data"
  | 2 => "system"
  | 4 => "metadata"
  | 5 => "data+metadata"
  | _ => "mixed"

end Chunk

/-! ## Inodes -/

structure Inode where
  size : Nat
  nlink : Nat
  uid : Nat
  gid : Nat
  mode : Nat
  mtimeSec : Int
  mtimeNsec : Nat
  deriving DecidableEq, Repr

namespace Inode

/-- A `u64` read as an `i64`. -/
def toI64 (n : Nat) : Int := if n < 2 ^ 63 then n else (n : Int) - 2 ^ 64

def parse (b : Bytes) : Except Error Inode := do
  let _ ← bytes b 0 INODE_ITEM_SIZE
  return { size := ← u64At b 16, nlink := ← u32At b 40, uid := ← u32At b 44, gid := ← u32At b 48,
           mode := ← u32At b 52, mtimeSec := toI64 (← u64At b 136), mtimeNsec := ← u32At b 144 }

theorem size_lt {b : Bytes} {i : Inode} (h : parse b = .ok i) : i.size < 2 ^ 64 := by
  obtain ⟨_, -, h⟩ := except_bind_ok.mp h
  obtain ⟨size, hs, h⟩ := except_bind_ok.mp h
  obtain ⟨_, -, h⟩ := except_bind_ok.mp h
  obtain ⟨_, -, h⟩ := except_bind_ok.mp h
  obtain ⟨_, -, h⟩ := except_bind_ok.mp h
  obtain ⟨_, -, h⟩ := except_bind_ok.mp h
  obtain ⟨_, -, h⟩ := except_bind_ok.mp h
  obtain ⟨_, -, h⟩ := except_bind_ok.mp h
  rw [← Except.ok.inj h]
  exact u64At_lt hs

/-- The file type bits of the mode. -/
def format (i : Inode) : Nat := i.mode &&& 0o170000

def isDir (i : Inode) : Bool := i.format == 0o040000
def isFile (i : Inode) : Bool := i.format == 0o100000
def isSymlink (i : Inode) : Bool := i.format == 0o120000

def typeName (i : Inode) : String :=
  match i.format with
  | 0o040000 => "dir"
  | 0o100000 => "file"
  | 0o120000 => "symlink"
  | 0o020000 => "chardev"
  | 0o060000 => "blockdev"
  | 0o010000 => "fifo"
  | 0o140000 => "socket"
  | _ => "unknown"

theorem not_isSymlink_of_isDir {i : Inode} (h : i.isDir = true) : i.isSymlink = false := by
  simp only [isDir, isSymlink, beq_iff_eq] at h ⊢
  rw [h]; decide

theorem not_isSymlink_of_isFile {i : Inode} (h : i.isFile = true) : i.isSymlink = false := by
  simp only [isFile, isSymlink, beq_iff_eq] at h ⊢
  rw [h]; decide

end Inode

/-! ## Directory entries -/

structure DirEntry where
  name : Bytes
  location : Key
  ftype : Nat
  deriving DecidableEq, Repr

/-- The entry at `off`, and where the next one begins. -/
def dirEntryAt (b : Bytes) (off : Nat) : Except Error (DirEntry × Nat) := do
  let location ← Key.parse b off
  let dataLen ← u16At b (off + 25)
  let nameLen ← u16At b (off + 27)
  let ftype ← u8At b (off + 29)
  let name ← bytes b (off + 30) nameLen
  return ({ name, location, ftype }, off + (30 + nameLen + dataLen))

/-- The entries from `off` on. Each takes at least 30 bytes, so the length is
fuel enough. -/
def dirEntriesFrom (b : Bytes) : (fuel off : Nat) → Except Error (List DirEntry)
  | 0, _ => .ok []
  | fuel + 1, off =>
    if off < b.length then do
      let (e, off) ← dirEntryAt b off
      return e :: (← dirEntriesFrom b fuel off)
    else .ok []

/-- A DIR_ITEM holds one entry per name that hashes to its key; a DIR_INDEX
holds one. -/
def parseDirEntries (b : Bytes) : Except Error (List DirEntry) := dirEntriesFrom b b.length 0

/-! ## File extents -/

inductive ExtentKind
  | inline (raw : Bytes)
  /-- A real extent; a `diskBytenr` of 0 is a hole. -/
  | regular (diskBytenr diskNumBytes offset : Nat)
  | prealloc
  deriving DecidableEq, Repr

structure Extent where
  fileOff : Nat
  /-- Bytes this extent contributes to the file. -/
  len : Nat
  ramBytes : Nat
  compression : Nat
  kind : ExtentKind
  deriving DecidableEq, Repr

namespace Extent

def parse (fileOff : Nat) (b : Bytes) : Except Error Extent := do
  let ramBytes ← u64At b 8
  let compression ← u8At b 16
  let encryption ← u8At b 17
  bailIf (encryption ≠ 0) (.msg "encrypted extents are not supported")
  let ty ← u8At b 20
  match ty with
  | 0 =>
    let raw ← bytes b 21 (b.length - 21)
    return { fileOff, len := ramBytes, ramBytes, compression, kind := .inline raw }
  | 1 =>
    let numBytes ← u64At b 45
    let kind := .regular (← u64At b 21) (← u64At b 29) (← u64At b 37)
    return { fileOff, len := numBytes, ramBytes, compression, kind }
  | 2 =>
    let numBytes ← u64At b 45
    return { fileOff, len := numBytes, ramBytes, compression, kind := .prealloc }
  | t => throw (.msg s!"unknown file extent type {t}")

def compressionName (e : Extent) : String :=
  match e.compression with
  | 0 => "none"
  | 1 => "zlib"
  | 2 => "lzo"
  | 3 => "zstd"
  | _ => "unknown"

end Extent

/-- `btrfs_name_hash`: raw crc32c seeded with `~1`, no final inversion. The
crate inverts on the way in and out. -/
def nameHash (X : Crates) (name : Bytes) : Nat := 2 ^ 32 - 1 - X.crc32cAppend 1 name

end BtrfsPeek
