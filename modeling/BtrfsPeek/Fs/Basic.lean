import BtrfsPeek.Dev
import BtrfsPeek.Decompress

/-!
# The filesystem: chunk mapping and tree blocks

The first half of `fs.rs`. An `Fs` is what does not change after `Fs::open`;
`FsState` has the caches, which every operation may read and fill, and the
state of the devices. Machine additions wrap (`wadd`) as in a release build.
-/

namespace BtrfsPeek

open Effect

/-- The `u64` sum. -/
def wadd (a b : Nat) : Nat := (a + b) % 2 ^ 64

/-- `u64::checked_add`. -/
def checkedAdd (a b : Nat) : Option Nat := if a + b < 2 ^ 64 then some (a + b) else none

/-- `u64::saturating_add`. -/
def satAdd (a b : Nat) : Nat := min (a + b) U64_MAX

/-- An inode is only unique within its subvolume tree. -/
structure Loc where
  tree : Nat
  ino : Nat
  deriving DecidableEq, Repr

structure Entry where
  name : Bytes
  loc : Loc
  ftype : Nat
  /-- The entry is the root of another subvolume. -/
  subvol : Bool
  deriving DecidableEq, Repr

def Entry.nameLossy (e : Entry) : Text := Utf8.fromUtf8Lossy e.name

structure Subvol where
  id : Nat
  parent : Nat
  path : Text
  readonly : Bool
  snapshot : Bool
  generation : Nat
  deriving DecidableEq, Repr

/-- A tree block. -/
structure Node where
  buf : Bytes
  deriving DecidableEq, Repr

namespace Node

/-- Every block has a node's size, which is past the header. -/
def level (n : Node) : Nat := (n.buf.getD 100 0).toNat
def nritems (n : Node) : Nat := Bytes.ofLE (n.buf.slice 96 4)

def item (n : Node) (i : Nat) : Except Error (Key × Bytes) := do
  let o := HEADER_SIZE + i * 25
  let key ← Key.parse n.buf o
  let off ← u32At n.buf (o + 17)
  let size ← u32At n.buf (o + 21)
  return (key, ← bytes n.buf (HEADER_SIZE + off) size)

def ptr (n : Node) (i : Nat) : Except Error (Key × Nat) := do
  let o := HEADER_SIZE + i * 33
  return (← Key.parse n.buf o, ← u64At n.buf (o + KEY_SIZE))

/-- The items of a leaf. -/
def Items (n : Node) (items : List (Key × Bytes)) : Prop :=
  n.nritems = items.length ∧ ∀ i (h : i < items.length), n.item i = .ok items[i]

/-- The pointers of an inner node. -/
def Ptrs (n : Node) (ptrs : List (Key × Nat)) : Prop :=
  n.nritems = ptrs.length ∧ ∀ i (h : i < ptrs.length), n.ptr i = .ok ptrs[i]

end Node

structure TreeRoot where
  bytenr : Nat
  rootDirid : Nat
  deriving DecidableEq, Repr

variable {β : Type}

/-- `BTreeMap::insert` under the chunk's start. -/
def insertChunk (c : Chunk) : List Chunk → List Chunk
  | [] => [c]
  | d :: ds =>
    if c.start < d.start then c :: d :: ds
    else if c.start = d.start then c :: ds
    else d :: insertChunk c ds

/-- The chunks of a map are in ascending order of their starts. -/
def Mapped (cs : List Chunk) : Prop := cs.Pairwise fun c d => c.start < d.start

theorem mem_insertChunk {c d : Chunk} : ∀ {cs : List Chunk}, Mapped cs →
    (d ∈ insertChunk c cs ↔ d = c ∨ d ∈ cs ∧ d.start ≠ c.start)
  | [], _ => by simp [insertChunk]
  | x :: cs, h => by
    obtain ⟨hx, hcs⟩ := List.pairwise_cons.mp h
    unfold insertChunk
    split_ifs with hlt heq
    · -- All that is there starts later.
      have hall : ∀ y ∈ x :: cs, y.start ≠ c.start := by
        intro y hy
        rcases List.mem_cons.mp hy with rfl | hy
        · omega
        · have := hx y hy
          omega
      rw [List.mem_cons]
      exact or_congr_right ⟨fun hd => ⟨hd, hall d hd⟩, fun hd => hd.1⟩
    · rw [List.mem_cons, List.mem_cons]
      refine or_congr_right ⟨fun hd => ⟨.inr hd, ?_⟩, ?_⟩
      · have := hx d hd
        omega
      · rintro ⟨rfl | hd, hne⟩
        · exact absurd heq.symm hne
        · exact hd
    · rw [List.mem_cons, mem_insertChunk hcs, List.mem_cons]
      constructor
      · rintro (rfl | rfl | ⟨hd, hne⟩)
        · exact .inr ⟨.inl rfl, fun h => heq h.symm⟩
        · exact .inl rfl
        · exact .inr ⟨.inr hd, hne⟩
      · rintro (rfl | ⟨rfl | hd, hne⟩)
        · exact .inr (.inl rfl)
        · exact .inl rfl
        · exact .inr (.inr ⟨hd, hne⟩)

theorem Mapped.insertChunk {c : Chunk} : ∀ {cs : List Chunk}, Mapped cs → Mapped (insertChunk c cs)
  | [], _ => List.pairwise_singleton _ _
  | x :: cs, h => by
    obtain ⟨hx, hcs⟩ := List.pairwise_cons.mp h
    unfold BtrfsPeek.insertChunk
    split_ifs with hlt heq
    · refine List.pairwise_cons.mpr ⟨fun y hy => ?_, h⟩
      rcases List.mem_cons.mp hy with rfl | hy
      · exact hlt
      · exact hlt.trans (hx y hy)
    · exact List.pairwise_cons.mpr ⟨fun y hy => heq ▸ hx y hy, hcs⟩
    · refine List.pairwise_cons.mpr ⟨fun y hy => ?_, Mapped.insertChunk hcs⟩
      rcases (mem_insertChunk hcs).mp hy with rfl | ⟨hy, -⟩
      · omega
      · exact hx y hy

theorem Mapped.insertChunks {cs : List Chunk} (h : Mapped cs) (found : List Chunk) :
    Mapped (found.foldl (fun cs c => BtrfsPeek.insertChunk c cs) cs) := by
  induction found generalizing cs with
  | nil => exact h
  | cons c found ih => exact ih h.insertChunk

/-- An opened filesystem. -/
structure Fs (β : Type) where
  crates : Crates
  /-- The devices, by id. -/
  devs : List (Nat × Device β)
  sb : Superblock
  chunks : List Chunk
  ascending : Mapped chunks

/-- What an operation on an opened filesystem may change. -/
structure FsState (β : Type) where
  dev : β
  nodes : List (Nat × Node)
  roots : List (Nat × TreeRoot)
  /-- The last decompressed extent. -/
  lastExtent : Option (Nat × Bytes)

/-- The state before anything was read. -/
def FsState.empty (dev : β) : FsState β := ⟨dev, [], [], none⟩

abbrev FsM (β α : Type) := EStateM Error (FsState β) α

/-- A device operation. -/
def onDev {α : Type} (x : EStateM IoError β α) : FsM β α := fun s =>
  match x s.dev with
  | .ok a d => .ok a { s with dev := d }
  | .error e d => .error (.io e) { s with dev := d }

theorem onDev_run {α : Type} {x : EStateM IoError β α} {s : FsState β} {r : Except IoError α} {d : β}
    (h : x s.dev = done r d) : onDev x s = done (r.mapError .io) { s with dev := d } := by
  unfold onDev
  cases r <;> rw [h] <;> rfl

namespace Fs

variable (fs : Fs β)

/-- `self.chunks.range(..=logical).next_back()`. -/
def chunkAt (logical : Nat) : Option Chunk := (fs.chunks.filter (·.start ≤ logical)).getLast?

def striped : Nat :=
  BLOCK_GROUP_RAID0 ||| BLOCK_GROUP_RAID10 ||| BLOCK_GROUP_RAID5 ||| BLOCK_GROUP_RAID6

/-- The copies of an address on the devices given. -/
def copies (c : Chunk) (logical : Nat) : List (Device β × Nat) :=
  c.stripes.filterMap fun (devid, phys) =>
    (fs.devs.lookup devid).map fun d => (d, wadd phys (logical - c.start))

def mirrors (logical len : Nat) : Except Error (List (Device β × Nat)) :=
  match (fs.chunkAt logical).filter fun c => wadd logical len ≤ wadd c.start c.length with
  | none => .error (.msg s!"logical address {logical} (+{len}) is not mapped by any chunk")
  | some c =>
    if c.has striped ∧ c.stripes.length > 1 then
      .error (.msg s!"{c.profile} chunks striped across devices are not supported")
    else if fs.copies c logical = [] then
      .error (.msg s!"the device holding logical address {logical} was not given (filesystem has {fs.sb.numDevices} devices; pass each with --device)")
    else .ok (fs.copies c logical)

/-- Each mirror in turn, until one reads. -/
def readMirrors (len : Nat) : List (Device β × Nat) → (lastErr : Error) → FsM β Bytes
  | [], lastErr => throw lastErr
  | (dev, phys) :: ms, _ => do
    match ← attempt (onDev (dev.read phys len)) with
    | .ok b => pure b
    | .error e => readMirrors len ms e

/-- File data, from the first mirror that reads. -/
def readLogical (logical len : Nat) : FsM β Bytes := do
  let ms ← lift (fs.mirrors logical len)
  readMirrors len ms (.msg s!"logical address {logical} has no readable mirror")

/-- Whether the checksum of a tree block is wrong, for the one type that can be
checked. -/
def badSum (buf : Bytes) : Except Error Bool :=
  if fs.sb.csumType = 0 then do
    let sum ← u32At buf 0
    return decide (sum ≠ fs.crates.crc32c (buf.drop 32))
  else .ok false

/-- Each mirror in turn, until one holds an acceptable block. Too many items end
the search. -/
def nodeMirrors (logical : Nat) : List (Device β × Nat) → (lastErr : Error) → FsM β Node
  | [], lastErr => throw lastErr
  | (dev, phys) :: ms, _ => do
    match ← attempt (onDev (dev.read phys fs.sb.nodesize)) with
    | .error e => nodeMirrors logical ms e
    | .ok buf =>
      let addr ← lift (u64At buf 48)
      if addr ≠ logical then
        nodeMirrors logical ms (.msg s!"tree block at {logical} has the wrong address in its header")
      else do
        let bad ← lift (fs.badSum buf)
        if bad then nodeMirrors logical ms (.msg s!"tree block at {logical} failed its checksum")
        else
          let node : Node := ⟨buf⟩
          if node.nritems > (fs.sb.nodesize - HEADER_SIZE) / 25 then
            throw (.msg s!"tree block at {logical} claims {node.nritems} items")
          else pure node

/-- The most tree blocks the cache holds. -/
def MAX_NODES : Nat := 8192

/-- A tree block, without the cache. -/
def fetchNode (logical : Nat) : FsM β Node := do
  let ms ← lift (fs.mirrors logical fs.sb.nodesize)
  fs.nodeMirrors logical ms (.msg "unreadable")

/-- Puts a block in the cache, which is emptied first if it is full. -/
def cacheNode (logical : Nat) (node : Node) (s : FsState β) : FsState β :=
  { s with nodes := (logical, node) :: if s.nodes.length ≥ MAX_NODES then [] else s.nodes }

def readNode (logical : Nat) : FsM β Node := do
  let s ← get
  match s.nodes.lookup logical with
  | some n => pure n
  | none => do
    let node ← fs.fetchNode logical
    modify (cacheNode logical node)
    pure node

end Fs

end BtrfsPeek
