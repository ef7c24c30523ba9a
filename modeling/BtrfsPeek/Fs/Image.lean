import BtrfsPeek.Fs.Basic

/-!
# Writing images

The blocks of an image, from the items they are to hold. What is written is what
`Node.item` and `Node.ptr` read back (`items_leaf`, `ptrs_inner`). `image` makes
of the items of a subvolume an image whose every tree is one leaf, on a device
that is zeros and data in turn (`Spans`), and answers every read from that
content (`Spans.holds_backing`).
-/

namespace BtrfsPeek

namespace Image

/-- The header of a block: its address, the number of its items and its level. -/
def header (addr nritems level : Nat) : Bytes :=
  List.replicate 48 0 ++ (Bytes.toLE 8 addr ++ (List.replicate 40 0 ++
    (Bytes.toLE 4 nritems ++ Bytes.toLE 1 level)))

@[simp] theorem length_header (addr nritems level : Nat) :
    (header addr nritems level).length = HEADER_SIZE := by
  simp [header, HEADER_SIZE]

/-- Where an item's data is, after its key. -/
def itemHead (off : Nat) (x : Key × Bytes) : Bytes :=
  x.1.bytes ++ (Bytes.toLE 4 off ++ Bytes.toLE 4 x.2.length)

/-- The heads of a leaf's items, whose data begins at `off`. -/
def itemHeads (off : Nat) : List (Key × Bytes) → Bytes
  | [] => []
  | x :: xs => itemHead off x ++ itemHeads (off + x.2.length) xs

/-- The data of a leaf's items. -/
def itemData : List (Key × Bytes) → Bytes
  | [] => []
  | x :: xs => x.2 ++ itemData xs

/-- A leaf. -/
def leaf (addr : Nat) (items : List (Key × Bytes)) : Bytes :=
  header addr items.length 0 ++ (itemHeads (25 * items.length) items ++ itemData items)

def ptrBytes : List (Key × Nat) → Bytes
  | [] => []
  | x :: xs => x.1.bytes ++ (Bytes.toLE 8 x.2 ++ (List.replicate 8 0 ++ ptrBytes xs))

/-- An inner node. -/
def inner (addr level : Nat) (ptrs : List (Key × Nat)) : Bytes :=
  header addr ptrs.length level ++ ptrBytes ptrs

@[simp] theorem length_itemHead (off : Nat) (x : Key × Bytes) : (itemHead off x).length = 25 := by
  simp [itemHead, KEY_SIZE]

@[simp] theorem length_itemHeads (off : Nat) (xs : List (Key × Bytes)) :
    (itemHeads off xs).length = 25 * xs.length := by
  induction xs generalizing off with
  | nil => rfl
  | cons x xs ih =>
    simp only [itemHeads, List.length_append, length_itemHead, ih, List.length_cons]; omega

theorem level_of_hasAt {b : Bytes} {addr nritems level : Nat}
    (h : b.HasAt 0 (header addr nritems level)) (hl : level < 256) : (⟨b⟩ : Node).level = level := by
  obtain ⟨u, v, rfl, hu⟩ := h
  obtain rfl : u = [] := List.eq_nil_of_length_eq_zero hu
  simp [Node.level, header, Bytes.toLE, List.getD_eq_getElem?_getD]
  omega

theorem nritems_of_hasAt {b : Bytes} {addr nritems level : Nat}
    (h : b.HasAt 0 (header addr nritems level)) (hn : nritems < 2 ^ 32) :
    (⟨b⟩ : Node).nritems = nritems := by
  have h := h.right.right.right.left
  have hs := h.slice_eq
  simp only [List.length_replicate, Bytes.length_toLE, Nat.reduceAdd] at hs
  rw [Node.nritems, hs, Bytes.ofLE_toLE_of_lt hn]

/-- The item whose head is at its place and whose data is where that says. -/
theorem item_of_hasAt {b : Bytes} {i off : Nat} {x : Key × Bytes}
    (h : b.HasAt (HEADER_SIZE + i * 25) (itemHead off x)) (hd : b.HasAt (HEADER_SIZE + off) x.2)
    (hk : x.1.Fits) (hb : b.length < 2 ^ 32) : (⟨b⟩ : Node).item i = .ok x := by
  have hle := hd.le
  have h₁ := Key.parse_of_hasAt h.left hk
  have h₂ := uintAt_of_hasAt h.right.left (show off < 256 ^ 4 by omega)
  have h₃ := uintAt_of_hasAt h.right.right (show x.2.length < 256 ^ 4 by omega)
  simp only [Key.length_bytes, Bytes.length_toLE, KEY_SIZE, Nat.add_assoc, Nat.reduceAdd] at h₂ h₃
  simp only [Node.item, u32At, h₁, h₂, h₃, Nat.add_assoc, bytes_of_hasAt hd, bind, Except.bind]
  rfl

/-- The items from the `i`-th on, with their heads and their data in place. -/
theorem items_from {b : Bytes} (hb : b.length < 2 ^ 32) :
    ∀ (xs : List (Key × Bytes)) (i off : Nat), (∀ x ∈ xs, x.1.Fits) →
      b.HasAt (HEADER_SIZE + i * 25) (itemHeads off xs) → b.HasAt (HEADER_SIZE + off) (itemData xs) →
      ∀ j (h : j < xs.length), (⟨b⟩ : Node).item (i + j) = .ok xs[j]
  | [], _, _, _, _, _, j, h => absurd h (Nat.not_lt_zero j)
  | x :: xs, i, off, hk, hh, hd, 0, _ =>
    item_of_hasAt hh.left hd.left (hk x List.mem_cons_self) hb
  | x :: xs, i, off, hk, hh, hd, j + 1, h => by
    have hh' := hh.right
    have hd' := hd.right
    rw [length_itemHead, show HEADER_SIZE + i * 25 + 25 = HEADER_SIZE + (i + 1) * 25 by omega] at hh'
    rw [Nat.add_assoc] at hd'
    have := items_from hb xs (i + 1) _ (fun y hy => hk y (List.mem_cons_of_mem _ hy)) hh' hd' j
      (Nat.lt_of_succ_lt_succ h)
    rwa [Nat.add_assoc, Nat.add_comm 1 j] at this

/-- What is written in a leaf is what is read from it. -/
theorem items_leaf {b : Bytes} {addr : Nat} {items : List (Key × Bytes)}
    (h : b.HasAt 0 (leaf addr items)) (hb : b.length < 2 ^ 32) (hk : ∀ x ∈ items, x.1.Fits) :
    (⟨b⟩ : Node).level = 0 ∧ (⟨b⟩ : Node).Items items := by
  have hle := h.le
  simp only [leaf, List.length_append, length_itemHeads] at hle
  have hh := h.right.left
  have hd := h.right.right
  rw [length_header, Nat.zero_add] at hh hd
  rw [length_itemHeads] at hd
  have hi := items_from hb items 0 (25 * items.length) hk (by rwa [Nat.zero_mul]) hd
  exact ⟨level_of_hasAt h.left (by omega), nritems_of_hasAt h.left (by omega), fun j hj => by
    rw [← hi j hj, Nat.zero_add]⟩

/-- The pointers from the `i`-th on. -/
theorem ptrs_from {b : Bytes} :
    ∀ (xs : List (Key × Nat)) (i : Nat), (∀ x ∈ xs, x.1.Fits ∧ x.2 < 2 ^ 64) →
      b.HasAt (HEADER_SIZE + i * 33) (ptrBytes xs) →
      ∀ j (h : j < xs.length), (⟨b⟩ : Node).ptr (i + j) = .ok xs[j]
  | [], _, _, _, j, h => absurd h (Nat.not_lt_zero j)
  | x :: xs, i, hk, hh, 0, _ => by
    have hx := hk x List.mem_cons_self
    have h₁ := Key.parse_of_hasAt hh.left hx.1
    have h₂ := uintAt_of_hasAt hh.right.left hx.2
    rw [Key.length_bytes] at h₂
    simp only [Node.ptr, u64At, h₁, h₂, Nat.add_zero]
    rfl
  | x :: xs, i, hk, hh, j + 1, h => by
    have hh' := hh.right.right.right
    simp only [Key.length_bytes, Bytes.length_toLE, List.length_replicate, KEY_SIZE] at hh'
    rw [show HEADER_SIZE + i * 33 + 17 + 8 + 8 = HEADER_SIZE + (i + 1) * 33 by omega] at hh'
    have := ptrs_from xs (i + 1) (fun y hy => hk y (List.mem_cons_of_mem _ hy)) hh' j
      (Nat.lt_of_succ_lt_succ h)
    rwa [Nat.add_assoc, Nat.add_comm 1 j] at this

/-- What is written in a node is what is read from it. -/
theorem ptrs_inner {b : Bytes} {addr level : Nat} {ptrs : List (Key × Nat)}
    (h : b.HasAt 0 (inner addr level ptrs)) (hl : level < 256) (hn : ptrs.length < 2 ^ 32)
    (hk : ∀ x ∈ ptrs, x.1.Fits ∧ x.2 < 2 ^ 64) :
    (⟨b⟩ : Node).level = level ∧ (⟨b⟩ : Node).Ptrs ptrs := by
  have hh := h.right
  rw [length_header, Nat.zero_add] at hh
  have hp := ptrs_from ptrs 0 hk (by rwa [Nat.zero_mul])
  exact ⟨level_of_hasAt h.left hl, nritems_of_hasAt h.left hn, fun j hj => by
    rw [← hp j hj, Nat.zero_add]⟩

/-! ## A device image -/

/-- The content of a device: runs of zeros, each with the bytes after it. Past
the last one it is zeros. -/
abbrev Spans := List (Nat × Bytes)

namespace Spans

/-- The byte at `p`. -/
def byte : Spans → (p : Nat) → UInt8
  | [], _ => 0
  | (gap, d) :: rest, p =>
    if p < gap then 0
    else if p - gap < d.length then d.getD (p - gap) 0
    else byte rest (p - gap - d.length)

/-- The `n` bytes at `off`. -/
def read : Spans → (off n : Nat) → Bytes
  | [], _, n => List.replicate n 0
  | (gap, d) :: rest, off, n =>
    let zeros := min n (gap - off)
    let part := d.slice (off - gap) (n - zeros)
    List.replicate zeros 0 ++ (part ++ read rest (off - gap - d.length) (n - zeros - part.length))

@[simp] theorem length_read : ∀ (s : Spans) (off n : Nat), (read s off n).length = n
  | [], _, n => by simp [read]
  | (gap, d) :: rest, off, n => by
    simp only [read, List.length_append, List.length_replicate, length_read rest, Bytes.length_slice]
    omega

theorem read_getElem? : ∀ (s : Spans) (off n i : Nat), i < n →
    (read s off n)[i]? = some (byte s (off + i))
  | [], off, n, i, h => by simp [read, byte, h]
  | (gap, d) :: rest, off, n, i, h => by
    simp only [read, byte]
    have hl := Bytes.length_slice d (off - gap) (n - min n (gap - off))
    by_cases h₁ : off + i < gap
    · rw [if_pos h₁, List.getElem?_append_left (by rw [List.length_replicate]; omega),
        List.getElem?_replicate_of_lt (by omega)]
    rw [if_neg h₁, List.getElem?_append_right (by rw [List.length_replicate]; omega),
      List.length_replicate]
    by_cases h₂ : off + i - gap < d.length
    · rw [if_pos h₂, List.getElem?_append_left (by omega), Bytes.slice_getElem? (by omega),
        show off - gap + (i - min n (gap - off)) = off + i - gap by omega,
        List.getD_eq_getElem?_getD, List.getElem?_eq_getElem h₂, Option.getD_some]
    · rw [if_neg h₂, List.getElem?_append_right (by omega), read_getElem? rest _ _ _ (by omega)]
      congr 2
      omega

/-- The content of a device of `size` bytes. -/
def content (s : Spans) (size : Nat) (h : size < 2 ^ 63) : Content := ⟨size, byte s, h⟩

theorem read_eq (s : Spans) (size : Nat) (h : size < 2 ^ 63) (off n : Nat) :
    read s off n = (content s size h).read off n := by
  apply List.ext_getElem?
  intro i
  by_cases hi : i < n
  · rw [read_getElem? s off n i hi]
    simp [Content.read, content, hi]
  · rw [List.getElem?_eq_none, List.getElem?_eq_none] <;> simp only [length_read, Content.length_read] <;> omega

/-- A device that answers every read in full. -/
def backing (s : Spans) (size : Nat) : Backing Unit where
  readAt off len _ := (.ok (read s off (min len (size - off))), ())
  fits h := by cases h; rw [length_read]; exact Nat.min_le_left _ _
  patience _ := 0
  steady := impatient
  interrupted h := by cases h

theorem holds_backing (s : Spans) (size : Nat) (h : size < 2 ^ 63) :
    (backing s size).Holds (content s size h) := by
  intro off len _
  simp only [backing, length_read]
  refine ⟨read_eq s size h _ _, fun he => ?_, fun hne => ?_⟩
  · have := congrArg List.length he
    rw [length_read, List.length_nil] at this
    rw [show (content s size h).size = size from rfl]; omega
  · have : 0 < (read s off (min len (size - off))).length := List.length_pos_iff.mpr hne
    rw [length_read] at this
    rw [show (content s size h).size = size from rfl]; omega

end Spans

/-! ## An image of one subvolume -/

/-- Zeros. -/
def zeros (n : Nat) : Bytes := List.replicate n 0

/-- Where the blocks of the image are. Its one chunk maps every address to
itself. -/
def CHUNK_TREE : Nat := 0x11000
def ROOT_TREE : Nat := 0x12000
def FS_TREE : Nat := 0x13000
def DATA : Nat := 0x14000
def SIZE : Nat := 0x20000

/-- The inode of the subvolume's root. -/
def ROOT_DIR : Nat := 256

/-- The file, where an image has one. -/
def FILE : Loc := ⟨FS_TREE_OBJECTID, 257⟩

def chunkItem (length devid phys : Nat) : Bytes :=
  Bytes.toLE 8 length ++ (zeros 36 ++ (Bytes.toLE 2 1 ++ (zeros 2 ++
    (Bytes.toLE 8 devid ++ (Bytes.toLE 8 phys ++ zeros 16)))))

def sysChunkArray : Bytes :=
  (Key.mk ROOT_DIR CHUNK_ITEM_KEY 0).bytes ++ chunkItem SIZE 1 0

/-- A superblock whose checksums are of a type that is not checked. -/
def superblock : Bytes :=
  zeros 64 ++ (MAGIC ++ (Bytes.toLE 8 1 ++ (Bytes.toLE 8 ROOT_TREE ++ (Bytes.toLE 8 CHUNK_TREE ++
    (zeros 48 ++ (Bytes.toLE 4 4096 ++ (Bytes.toLE 4 4096 ++ (zeros 8 ++
      (Bytes.toLE 4 sysChunkArray.length ++ (zeros 32 ++ (Bytes.toLE 2 1 ++ (zeros 3 ++
        (Bytes.toLE 8 1 ++ (zeros 602 ++ sysChunkArray))))))))))))))

def rootItem (rootDirid bytenr : Nat) : Bytes :=
  zeros 168 ++ (Bytes.toLE 8 rootDirid ++ (Bytes.toLE 8 bytenr ++ zeros 55))

def inodeItem (size mode : Nat) : Bytes :=
  zeros 16 ++ (Bytes.toLE 8 size ++ (zeros 28 ++ (Bytes.toLE 4 mode ++ zeros 104)))

def dirItem (ino ftype : Nat) (name : Bytes) : Bytes :=
  (Key.mk ino INODE_ITEM_KEY 0).bytes ++ (zeros 10 ++ (Bytes.toLE 2 name.length ++
    (Bytes.toLE 1 ftype ++ name)))

/-- An entry alone is read back. -/
theorem parse_dirItem {ino ftype : Nat} {name : Bytes} (hino : ino < 2 ^ 64) (htype : ftype < 2 ^ 8)
    (hname : name.length < 2 ^ 16) :
    parseDirEntries (dirItem ino ftype name) = .ok [⟨name, ⟨ino, INODE_ITEM_KEY, 0⟩, ftype⟩] := by
  have hlength : (dirItem ino ftype name).length = 30 + name.length := by
    simp [dirItem, zeros, KEY_SIZE]
    omega
  have hall : (dirItem ino ftype name).HasAt 0 ((Key.mk ino INODE_ITEM_KEY 0).bytes ++
      (zeros 8 ++ (Bytes.toLE 2 0 ++ (Bytes.toLE 2 name.length ++ (Bytes.toLE 1 ftype ++ name))))) :=
    .whole _
  have hkey := Key.parse_of_hasAt hall.left
    ⟨hino, (by decide : INODE_ITEM_KEY < 2 ^ 8), Nat.two_pow_pos 64⟩
  have hdata := uintAt_of_hasAt hall.right.right.left (by decide)
  have hlen := uintAt_of_hasAt hall.right.right.right.left hname
  have hftype := uintAt_of_hasAt hall.right.right.right.right.left htype
  have hbytes := bytes_of_hasAt hall.right.right.right.right.right
  simp only [Key.length_bytes, Bytes.length_toLE, zeros, List.length_replicate, KEY_SIZE, Nat.reduceAdd]
    at hdata hlen hftype hbytes
  have hentry : dirEntryAt (dirItem ino ftype name) 0 =
      .ok (⟨name, ⟨ino, INODE_ITEM_KEY, 0⟩, ftype⟩, (dirItem ino ftype name).length) := by
    simp only [dirEntryAt, hkey, u16At, u8At, Nat.zero_add, hdata, hlen, hftype, hlength, bind, Except.bind]
    rw [hbytes]
    rfl
  rw [parseDirEntries, hlength, Nat.add_comm 30, dirEntriesFrom, if_pos (by omega), hentry]
  show (dirEntriesFrom _ _ _ >>= _) = _
  rw [dirEntriesFrom, if_neg (Nat.lt_irrefl _)]
  rfl

def inlineExtent (ramBytes compression : Nat) (raw : Bytes) : Bytes :=
  zeros 8 ++ (Bytes.toLE 8 ramBytes ++ (Bytes.toLE 1 compression ++ (zeros 4 ++ raw)))

def regularExtent (ramBytes compression diskBytenr diskNumBytes offset numBytes : Nat) : Bytes :=
  zeros 8 ++ (Bytes.toLE 8 ramBytes ++ (Bytes.toLE 1 compression ++ (zeros 3 ++ (Bytes.toLE 1 1 ++
    (Bytes.toLE 8 diskBytenr ++ (Bytes.toLE 8 diskNumBytes ++ (Bytes.toLE 8 offset ++
      Bytes.toLE 8 numBytes)))))))

/-- What comes after a block of `b`, up to its full size. -/
def blocks : List Bytes → Spans
  | [] => []
  | [b] => [(0, b)]
  | b :: c :: rest =>
    match blocks (c :: rest) with
    | [] => [(0, b)]
    | (gap, d) :: spans => (0, b) :: (gap + (4096 - b.length), d) :: spans

/-- An image whose one subvolume holds `items`, with `data` at `DATA`. -/
def image (items : List (Key × Bytes)) (data : Bytes) : Spans :=
  match blocks [superblock, leaf CHUNK_TREE [],
      leaf ROOT_TREE [(⟨FS_TREE_OBJECTID, ROOT_ITEM_KEY, 0⟩, rootItem ROOT_DIR FS_TREE)],
      leaf FS_TREE items, data] with
  | [] => []
  | (gap, d) :: spans => (gap + SUPER_OFFSET, d) :: spans

/-- One byte of a checksum. -/
def crcByte (crc : Nat) (b : UInt8) : Nat :=
  (List.range 8).foldl (fun c _ => if c % 2 = 1 then (c / 2) ^^^ 0x82F63B78 else c / 2)
    (crc ^^^ b.toNat)

/-- A zlib stream of one byte, stored. -/
def storedByte : Bytes := [0x78, 0x01, 0x01, 0x01, 0x00, 0xFE, 0xFF, 0x61, 0x00, 0x62, 0x00, 0x62]

/-- The crates, as far as an image here has them called. -/
def crates : Crates where
  crc32cAppend crc b := 2 ^ 32 - 1 - b.foldl crcByte (2 ^ 32 - 1 - crc)
  zlib b := if b = storedByte then ⟨[0x61], none⟩ else ⟨[], some "corrupt deflate stream"⟩
  zstd _ := .error "bad magic number"
  lzo _ _ := .failed "lookbehind overrun"
  glob _ := .error "invalid glob"
  debugStr t := String.ofList t

/-- What `superblock` says. -/
def sb : Superblock where
  fsid := zeros 16
  generation := 1
  root := ROOT_TREE
  chunkRoot := CHUNK_TREE
  logRoot := 0
  totalBytes := 0
  bytesUsed := 0
  rootDirObjectid := 0
  numDevices := 0
  sectorsize := 4096
  nodesize := 4096
  incompatFlags := 0
  csumType := 1
  devid := 1
  label := []
  sysChunkArray := sysChunkArray
  sectorsize_ok := by decide
  nodesize_ok := by decide

/-- An image of one file of three bytes: two in an uncompressed extent, and the
last in a compressed one. -/
def twoKinds : Spans :=
  image [(⟨ROOT_DIR, INODE_ITEM_KEY, 0⟩, inodeItem 0 0o40755),
    (⟨257, INODE_ITEM_KEY, 0⟩, inodeItem 3 0o100644),
    (⟨257, EXTENT_DATA_KEY, 0⟩, regularExtent 2 0 DATA 2 0 2),
    (⟨257, EXTENT_DATA_KEY, 2⟩, regularExtent 1 1 (DATA + 2) storedByte.length 0 1)]
    ([7, 9] ++ storedByte)

/-- Opens an image, or the device it is on. -/
def opener (s : Spans) : String → Unit → Except OsError (Backing Unit) × Unit :=
  fun _ _ => (.ok (s.backing SIZE), ())

/-- An opened image. -/
def fs (s : Spans) : Fs Unit where
  crates := crates
  devs := [(1, ⟨"image", s.backing SIZE⟩)]
  sb := sb
  chunks := [⟨0, SIZE, 0, [(1, 0)]⟩]
  ascending := List.pairwise_singleton _ _

end Image

end BtrfsPeek
