import BtrfsPeek.Fs.Open
import BtrfsPeek.Lib.Records
import Mathlib.Data.List.Induction

/-!
# Directory and chunk records

The strings of records that are parsed in a loop: the entries of a directory item, and
the SYSTEM chunks of the superblock. Neither parser looks at the end of a record: the data
of an entry, and the uuid of a chunk's last stripe, are skipped. So each takes a string
whose last record is cut there, and is exact for all others.
-/

namespace BtrfsPeek

open Effect

/-- A number of `w` bytes. -/
abbrev UInt (w : Nat) := { n : Nat // n < 256 ^ w }

/-- `n` bytes. -/
abbrev BytesOf (n : Nat) := { b : Bytes // b.length = n }

/-! ## Directory entries -/

/-- An entry of a directory item. -/
structure DirRecord where
  location : { k : Key // k.Fits }
  transid : UInt 8
  ftype : UInt 1
  name : { b : Bytes // b.length < 2 ^ 16 }
  data : { b : Bytes // b.length < 2 ^ 16 }

namespace DirRecord

/-- What is parsed of it. -/
def entry (r : DirRecord) : DirEntry := ⟨r.name, r.location, r.ftype⟩

/-- Its bytes, up to the data. -/
def front (r : DirRecord) : Bytes :=
  r.location.1.bytes ++ (Bytes.toLE 8 r.transid ++ (Bytes.toLE 2 r.data.1.length ++
    (Bytes.toLE 2 r.name.1.length ++ (Bytes.toLE 1 r.ftype ++ r.name))))

end DirRecord

def dirRecords : Layout DirRecord where
  front := DirRecord.front
  back r := r.data
  front_ne r h := by
    have := congrArg List.length h
    simp [DirRecord.front] at this

theorem DirRecord.length_front (r : DirRecord) : r.front.length = 30 + r.name.1.length := by
  simp [front, KEY_SIZE]
  omega

/-- The key at an offset, and what is there. -/
theorem Key.parse_ok {b : Bytes} {off : Nat} {k : Key} (h : Key.parse b off = .ok k) :
    k.Fits ∧ b.HasAt off k.bytes := by
  obtain ⟨objectid, hobj, h⟩ := except_bind_ok.mp h
  obtain ⟨ty, hty, h⟩ := except_bind_ok.mp h
  obtain ⟨offset, hoff, h⟩ := except_bind_ok.mp h
  obtain rfl := Except.ok.inj h
  refine ⟨⟨uintAt_lt hobj, uintAt_lt hty, uintAt_lt hoff⟩, ?_⟩
  refine (hasAt_of_uintAt hobj).append ?_
  rw [Bytes.length_toLE]
  refine (hasAt_of_uintAt hty).append ?_
  rw [Bytes.length_toLE]
  exact hasAt_of_uintAt hoff

theorem dirRecords_parses : dirRecords.Parses DirRecord.entry dirEntryAt where
  ok_iff {b off off' e} hoff := by
    constructor
    · intro h
      obtain ⟨location, hloc, h⟩ := except_bind_ok.mp h
      obtain ⟨dataLen, hdata, h⟩ := except_bind_ok.mp h
      obtain ⟨nameLen, hname, h⟩ := except_bind_ok.mp h
      obtain ⟨ftype, hftype, h⟩ := except_bind_ok.mp h
      obtain ⟨name, hbytes, h⟩ := except_bind_ok.mp h
      obtain ⟨rfl, rfl⟩ := Prod.mk.inj (Except.ok.inj h)
      obtain ⟨hfits, hkey⟩ := Key.parse_ok hloc
      obtain ⟨hle, rfl⟩ := bytes_ok_iff.mp hbytes
      have hlen : (b.slice (off + 30) nameLen).length = nameLen := Bytes.length_slice_of_le hle
      obtain ⟨data, hdlen, hback⟩ := Layout.exists_back (b.drop (off + 30 + nameLen)) dataLen
      have htrans : off + 17 + 8 ≤ b.length := by omega
      let r : DirRecord :=
        { location := ⟨location, hfits⟩
          transid := ⟨Bytes.ofLE (b.slice (off + 17) 8), uintAt_lt (uintAt_of_le htrans)⟩
          ftype := ⟨ftype, uintAt_lt hftype⟩
          name := ⟨b.slice (off + 30) nameLen, by rw [hlen]; exact uintAt_lt hname⟩
          data := ⟨data, by rw [hdlen]; exact uintAt_lt hdata⟩ }
      -- The fields are one after another.
      have hfront : b.HasAt off r.front := by
        refine hkey.append ?_
        rw [Key.length_bytes]
        refine (hasAt_of_uintAt (uintAt_of_le htrans)).append ?_
        rw [Bytes.length_toLE]
        refine Bytes.HasAt.append (s := Bytes.toLE 2 data.length) ?_ ?_
        · rw [hdlen]
          exact hasAt_of_uintAt hdata
        rw [Bytes.length_toLE]
        refine Bytes.HasAt.append (s := Bytes.toLE 2 (b.slice (off + 30) nameLen).length) ?_ ?_
        · rw [hlen]
          exact hasAt_of_uintAt hname
        rw [Bytes.length_toLE]
        refine (hasAt_of_uintAt hftype).append ?_
        rw [Bytes.length_toLE]
        exact Bytes.hasAt_slice hle
      obtain ⟨d, hd⟩ := (Bytes.hasAt_iff hoff.le).mp hfront
      have hlenf : r.front.length = 30 + nameLen := by rw [r.length_front, hlen]
      refine ⟨r, rfl, ?_, Layout.begins_of_front hd.symm ?_⟩
      · rw [Layout.length_enc, show (dirRecords.front r).length = r.front.length from rfl, hlenf]
        show off + (30 + nameLen + dataLen) = off + (30 + nameLen + data.length)
        rw [hdlen]
      · have hrest : d = b.drop (off + 30 + nameLen) := by
          have := congrArg (List.drop (30 + nameLen)) hd
          rw [← hlenf, List.drop_left, List.drop_drop, hlenf] at this
          rw [this, Nat.add_assoc]
        rw [hrest]
        exact hback
    · rintro ⟨r, rfl, rfl, hr⟩
      have hfront : b.HasAt off r.front := (Bytes.hasAt_iff hoff.le).mpr hr.1
      have hkey := Key.parse_of_hasAt hfront.left r.location.2
      have hdata := uintAt_of_hasAt hfront.right.right.left r.data.2
      have hname := uintAt_of_hasAt hfront.right.right.right.left r.name.2
      have hftype := uintAt_of_hasAt hfront.right.right.right.right.left r.ftype.2
      have hbytes := bytes_of_hasAt hfront.right.right.right.right.right
      simp only [Key.length_bytes, Bytes.length_toLE, KEY_SIZE, Nat.add_assoc, Nat.reduceAdd]
        at hdata hname hftype hbytes
      simp only [dirEntryAt, hkey, u16At, u8At, hdata, hname, hftype, bind, Except.bind]
      rw [hbytes, Layout.length_enc, show (dirRecords.front r).length = 30 + r.name.1.length from r.length_front]
      rfl

theorem dirEntriesFrom_eq (b : Bytes) : ∀ fuel off : Nat,
    dirEntriesFrom b fuel off = Layout.loop dirEntryAt b fuel off
  | 0, _ => rfl
  | fuel + 1, off => by
    rw [dirEntriesFrom, Layout.loop]
    simp only [dirEntriesFrom_eq b fuel]

/-- Whole records are decoded, and nothing else is, unless the last one's data is cut. -/
theorem parseDirEntries_exact_iff (b : Bytes) :
    (∀ rs, b = dirRecords.encAll rs → parseDirEntries b = .ok (rs.map DirRecord.entry)) ∧
    (((∃ es, parseDirEntries b = .ok es) ↔ ∃ rs, b = dirRecords.encAll rs) ↔ ¬ dirRecords.Cut b) := by
  rw [parseDirEntries, dirEntriesFrom_eq]
  refine ⟨?_, Layout.exact_iff dirRecords_parses b⟩
  rintro rs rfl
  exact Layout.loop_encAll dirRecords_parses rs

/-- An entry that claims a byte of data, and ends before it. -/
def cutEntry : Bytes := List.replicate 25 0 ++ [1, 0, 0, 0, 0]

/-- It is decoded, though it is no string of whole records. -/
theorem parseDirEntries_cut : parseDirEntries cutEntry = .ok [⟨[], ⟨0, 0, 0⟩, 0⟩] ∧
    ¬ ∃ rs, cutEntry = dirRecords.encAll rs := by
  have hparse : parseDirEntries cutEntry = .ok [⟨[], ⟨0, 0, 0⟩, 0⟩] := by decide +kernel
  let r : DirRecord := ⟨⟨⟨0, 0, 0⟩, by decide⟩, ⟨0, by decide⟩, ⟨0, by decide⟩, ⟨[], by decide⟩, ⟨[0], by decide⟩⟩
  have hcut : dirRecords.Cut cutEntry := ⟨[], r, 0, by decide, by decide +kernel⟩
  refine ⟨hparse, fun hwhole => ?_⟩
  rw [parseDirEntries, dirEntriesFrom_eq] at hparse
  exact (Layout.exact_iff dirRecords_parses cutEntry).mp (iff_of_true ⟨_, hparse⟩ hwhole) hcut

/-! ## Chunks -/

structure Stripe where
  devid : UInt 8
  offset : UInt 8
  uuid : BytesOf 16

namespace Stripe

/-- Its bytes, up to the uuid. -/
def front (x : Stripe) : Bytes := Bytes.toLE 8 x.devid ++ Bytes.toLE 8 x.offset

def bytes (x : Stripe) : Bytes := x.front ++ x.uuid

def place (x : Stripe) : Nat × Nat := (x.devid, x.offset)

@[simp] theorem length_front (x : Stripe) : x.front.length = 16 := by simp [front]

@[simp] theorem length_bytes (x : Stripe) : x.bytes.length = 32 := by simp [bytes, x.uuid.2]

theorem length_flatMap (xs : List Stripe) : (xs.flatMap bytes).length = xs.length * 32 := by
  induction xs with
  | nil => rfl
  | cons x xs ih =>
    rw [List.flatMap_cons, List.length_append, ih, length_bytes, List.length_cons]
    omega

end Stripe

/-- A chunk item, which has a stripe at least. -/
structure ChunkItem where
  length : UInt 8
  /-- The owner, and the length of a stripe. -/
  owner : BytesOf 16
  ty : UInt 8
  /-- How its devices are aligned. -/
  align : BytesOf 12
  subStripes : BytesOf 2
  init : List Stripe
  last : Stripe
  few : init.length + 1 < 2 ^ 16

namespace ChunkItem

/-- What comes before the stripes. -/
def head (r : ChunkItem) : Bytes :=
  Bytes.toLE 8 r.length ++ (r.owner.1 ++ (Bytes.toLE 8 r.ty ++ (r.align.1 ++
    (Bytes.toLE 2 (r.init.length + 1) ++ r.subStripes.1))))

/-- Its bytes, up to the uuid of the last stripe. -/
def front (r : ChunkItem) : Bytes := r.head ++ (r.init.flatMap Stripe.bytes ++ r.last.front)

def stripes (r : ChunkItem) : List (Nat × Nat) := (r.init ++ [r.last]).map Stripe.place

/-- What is parsed of it. -/
def chunk (r : ChunkItem) (start : Nat) : Chunk := ⟨start, r.length, r.ty, r.stripes⟩

theorem length_head (r : ChunkItem) : r.head.length = 48 := by
  simp [head, r.owner.2, r.align.2, r.subStripes.2]

theorem length_front (r : ChunkItem) : r.front.length = 64 + r.init.length * 32 := by
  rw [front, List.length_append, length_head, List.length_append, Stripe.length_flatMap,
    Stripe.length_front]
  omega

end ChunkItem

def chunkItems : Layout ChunkItem where
  front := ChunkItem.front
  back r := r.last.uuid
  front_ne r h := by
    have := congrArg List.length h
    rw [r.length_front] at this
    simp at this

theorem ChunkItem.length_enc (r : ChunkItem) :
    (chunkItems.enc r).length = 48 + (r.init.length + 1) * 32 := by
  rw [Layout.length_enc, show (chunkItems.front r).length = _ from r.length_front,
    show (chunkItems.back r).length = 16 from r.last.uuid.2]
  omega

/-- The stripes of a list and one more. -/
theorem stripesAt_of_hasAt {b : Bytes} (last : Stripe) : ∀ (init : List Stripe) (i : Nat),
    b.HasAt (48 + i * 32) (init.flatMap Stripe.bytes ++ last.front) →
    Chunk.stripesAt b (init.length + 1) i = .ok ((init ++ [last]).map Stripe.place)
  | [], i, h => by
    have hdev := uintAt_of_hasAt h.right.left last.devid.2
    have hoff := uintAt_of_hasAt h.right.right last.offset.2
    simp only [List.flatMap_nil, List.length_nil, Nat.add_zero, Bytes.length_toLE] at hdev hoff
    simp only [List.length_nil, Chunk.stripesAt, u64At, hdev, hoff, bind, Except.bind]
    rfl
  | x :: init, i, h => by
    rw [List.flatMap_cons, List.append_assoc] at h
    have hdev := uintAt_of_hasAt h.left.left.left x.devid.2
    have hoff := uintAt_of_hasAt h.left.left.right x.offset.2
    have hrest := h.right
    rw [Stripe.length_bytes, show 48 + i * 32 + 32 = 48 + (i + 1) * 32 by omega] at hrest
    rw [Bytes.length_toLE] at hoff
    have ih := stripesAt_of_hasAt last init (i + 1) hrest
    rw [List.length_cons, Chunk.stripesAt]
    simp only [u64At, hdev, hoff, ih, bind, Except.bind]
    rfl

/-- What stripes were read of is there: of the last all but its uuid. -/
theorem hasAt_of_stripesAt {b : Bytes} : ∀ (count i : Nat) {l : List (Nat × Nat)},
    Chunk.stripesAt b (count + 1) i = .ok l → ∃ (init : List Stripe) (devid offset : UInt 8),
      init.length = count ∧ l = init.map Stripe.place ++ [(devid.1, offset.1)] ∧
      b.HasAt (48 + i * 32) (init.flatMap Stripe.bytes ++ (Bytes.toLE 8 devid ++ Bytes.toLE 8 offset))
  | 0, i, l, h => by
    obtain ⟨devid, hdev, h⟩ := except_bind_ok.mp h
    obtain ⟨offset, hoff, h⟩ := except_bind_ok.mp h
    obtain rfl := Except.ok.inj h
    refine ⟨[], ⟨devid, uintAt_lt hdev⟩, ⟨offset, uintAt_lt hoff⟩, rfl, rfl, ?_⟩
    refine (hasAt_of_uintAt hdev).append ?_
    rw [Bytes.length_toLE]
    exact hasAt_of_uintAt hoff
  | count + 1, i, l, h => by
    obtain ⟨devid, hdev, h⟩ := except_bind_ok.mp h
    obtain ⟨offset, hoff, h⟩ := except_bind_ok.mp h
    obtain ⟨rest, hrest, h⟩ := except_bind_ok.mp h
    obtain rfl := Except.ok.inj h
    obtain ⟨init, devid', offset', hlen, rfl, hat⟩ := hasAt_of_stripesAt count (i + 1) hrest
    rw [show 48 + (i + 1) * 32 = 48 + i * 32 + 32 by omega] at hat
    -- The next stripe is there, and so all of this one.
    have hle := hat.le
    rw [List.length_append, List.length_append, Bytes.length_toLE, Bytes.length_toLE] at hle
    have huuid : 48 + i * 32 + 16 + 16 ≤ b.length := by omega
    let x : Stripe := ⟨⟨devid, uintAt_lt hdev⟩, ⟨offset, uintAt_lt hoff⟩,
      ⟨b.slice (48 + i * 32 + 16) 16, Bytes.length_slice_of_le huuid⟩⟩
    have hx : b.HasAt (48 + i * 32) x.bytes := by
      refine Bytes.HasAt.append (s := x.front) ?_ ?_
      · refine (hasAt_of_uintAt hdev).append ?_
        rw [Bytes.length_toLE]
        exact hasAt_of_uintAt hoff
      · rw [x.length_front]
        exact Bytes.hasAt_slice huuid
    refine ⟨x :: init, devid', offset', by rw [List.length_cons, hlen], rfl, ?_⟩
    rw [List.flatMap_cons, List.append_assoc]
    refine hx.append ?_
    rw [x.length_bytes]
    exact hat

/-- A chunk item is parsed where the string begins with one, but for the end of its last
stripe's uuid where the string ends. -/
theorem Chunk.parse_ok_iff {start used : Nat} {b : Bytes} {c : Chunk} :
    Chunk.parse start b = .ok (c, used) ↔
      ∃ r : ChunkItem, r.chunk start = c ∧ used = (chunkItems.enc r).length ∧ chunkItems.Begins b r := by
  constructor
  · intro h
    obtain ⟨count, hcount, h⟩ := except_bind_ok.mp h
    obtain ⟨_, hpos, h⟩ := except_bind_ok.mp h
    obtain ⟨stripes, hstripes, h⟩ := except_bind_ok.mp h
    obtain ⟨length, hlength, h⟩ := except_bind_ok.mp h
    obtain ⟨ty, hty, h⟩ := except_bind_ok.mp h
    obtain ⟨rfl, rfl⟩ := Prod.mk.inj (Except.ok.inj h)
    obtain ⟨count, rfl⟩ := Nat.exists_eq_succ_of_ne_zero (bailIf_ok_iff.mp hpos)
    obtain ⟨init, devid, offset, rfl, rfl, hat⟩ := hasAt_of_stripesAt count 0 hstripes
    have hle := hat.le
    simp only [List.length_append, Bytes.length_toLE] at hle
    obtain ⟨uuid, huuid, hback⟩ := Layout.exists_back (b.drop (64 + init.length * 32)) 16
    let r : ChunkItem :=
      { length := ⟨length, uintAt_lt hlength⟩
        owner := ⟨b.slice 8 16, Bytes.length_slice_of_le (by omega)⟩
        ty := ⟨ty, uintAt_lt hty⟩
        align := ⟨b.slice 32 12, Bytes.length_slice_of_le (by omega)⟩
        subStripes := ⟨b.slice 46 2, Bytes.length_slice_of_le (by omega)⟩
        init := init
        last := ⟨devid, offset, ⟨uuid, huuid⟩⟩
        few := uintAt_lt hcount }
    have hhead : b.HasAt 0 r.head := by
      refine (hasAt_of_uintAt hlength).append ?_
      rw [Bytes.length_toLE]
      refine Bytes.HasAt.append (s := b.slice 8 16) (Bytes.hasAt_slice (by omega)) ?_
      rw [Bytes.length_slice_of_le (by omega)]
      refine (hasAt_of_uintAt hty).append ?_
      rw [Bytes.length_toLE]
      refine Bytes.HasAt.append (s := b.slice 32 12) (Bytes.hasAt_slice (by omega)) ?_
      rw [Bytes.length_slice_of_le (by omega)]
      refine (hasAt_of_uintAt hcount).append ?_
      rw [Bytes.length_toLE]
      exact Bytes.hasAt_slice (by omega)
    have hfront : b.HasAt 0 r.front := by
      refine hhead.append ?_
      rw [r.length_head]
      exact hat
    obtain ⟨d, hd⟩ := (Bytes.hasAt_iff (Nat.zero_le _)).mp hfront
    rw [List.drop_zero] at hd
    have hrest : d = b.drop (64 + init.length * 32) := by
      have := congrArg (List.drop r.front.length) hd
      rwa [List.drop_left, r.length_front] at this
    refine ⟨r, ?_, r.length_enc.symm, Layout.begins_of_front hd.symm (hrest ▸ hback)⟩
    simp [ChunkItem.chunk, ChunkItem.stripes, r, Stripe.place]
  · rintro ⟨r, rfl, rfl, hr⟩
    have hfront : b.HasAt 0 (r.head ++ (r.init.flatMap Stripe.bytes ++ r.last.front)) :=
      (Bytes.hasAt_iff (Nat.zero_le _)).mpr hr.1
    have hlength := uintAt_of_hasAt hfront.left.left r.length.2
    have hty := uintAt_of_hasAt hfront.left.right.right.left r.ty.2
    have hcount := uintAt_of_hasAt hfront.left.right.right.right.right.left r.few
    have hat := hfront.right
    simp only [Bytes.length_toLE, r.owner.2, r.align.2, Nat.zero_add, Nat.reduceAdd] at hty hcount
    rw [r.length_head] at hat
    have hstripes := stripesAt_of_hasAt r.last r.init 0 hat
    have hbail : bailIf (r.init.length + 1 = 0) (.msg s!"corrupt chunk at {start}: zero stripes") = .ok () :=
      if_neg (Nat.succ_ne_zero _)
    simp only [Chunk.parse, u16At, u64At, hcount, hbail, hlength, hty, hstripes, bind, Except.bind]
    rw [r.length_enc]
    rfl

/-- An entry of the superblock's array: a key, whose offset is the chunk's start, and the
item. -/
structure ChunkRecord where
  objectid : UInt 8
  start : UInt 8
  item : ChunkItem

namespace ChunkRecord

def key (r : ChunkRecord) : Key := ⟨r.objectid, CHUNK_ITEM_KEY, r.start⟩

def chunk (r : ChunkRecord) : Chunk := r.item.chunk r.start

theorem fits_key (r : ChunkRecord) : r.key.Fits := ⟨r.objectid.2, show CHUNK_ITEM_KEY < 2 ^ 8 by decide, r.start.2⟩

end ChunkRecord

def chunkRecords : Layout ChunkRecord where
  front r := r.key.bytes ++ r.item.front
  back r := r.item.last.uuid
  front_ne r h := by
    have := congrArg List.length h
    simp [KEY_SIZE] at this

namespace Fs

/-- The chunk at an offset, and where the next one begins. -/
def sysChunkAt (arr : Bytes) (off : Nat) : Except Error (Chunk × Nat) := do
  let key ← Key.parse arr off
  bailIf (key.ty ≠ CHUNK_ITEM_KEY) (.msg s!"corrupt sys_chunk_array: key type {key.ty}")
  let (chunk, used) ← Chunk.parse key.offset (arr.drop (off + KEY_SIZE))
  return (chunk, off + KEY_SIZE + used)

theorem sysChunks_eq (arr : Bytes) : ∀ (fuel off : Nat) (chunks : List Chunk),
    sysChunks arr fuel off chunks =
      (Layout.loop sysChunkAt arr fuel off).map fun cs => cs.foldl (fun m c => insertChunk c m) chunks
  | 0, _, _ => rfl
  | fuel + 1, off, chunks => by
    rw [sysChunks, Layout.loop]
    split_ifs with hoff
    · unfold sysChunkAt
      cases hk : Key.parse arr off with
      | error e => rfl
      | ok key =>
        simp only [bind, Except.bind]
        cases hb : bailIf (key.ty ≠ CHUNK_ITEM_KEY) (.msg s!"corrupt sys_chunk_array: key type {key.ty}") with
        | error e => rfl
        | ok _ =>
          dsimp only
          cases hc : Chunk.parse key.offset (arr.drop (off + KEY_SIZE)) with
          | error e => rfl
          | ok r =>
            obtain ⟨chunk, used⟩ := r
            dsimp only
            rw [sysChunks_eq arr fuel]
            show _ = Except.map _ (Layout.loop sysChunkAt arr fuel (off + KEY_SIZE + used) >>= _)
            cases Layout.loop sysChunkAt arr fuel (off + KEY_SIZE + used) <;> rfl
    · rfl

theorem chunkRecords_parses : chunkRecords.Parses ChunkRecord.chunk sysChunkAt where
  ok_iff {arr off off' c} hoff := by
    constructor
    · intro h
      obtain ⟨key, hkey, h⟩ := except_bind_ok.mp h
      obtain ⟨_, hty, h⟩ := except_bind_ok.mp h
      obtain ⟨⟨chunk, used⟩, hchunk, h⟩ := except_bind_ok.mp h
      obtain ⟨rfl, rfl⟩ := Prod.mk.inj (Except.ok.inj h)
      obtain ⟨hfits, hat⟩ := Key.parse_ok hkey
      obtain ⟨item, rfl, rfl, hitem⟩ := Chunk.parse_ok_iff.mp hchunk
      have hty : key.ty = CHUNK_ITEM_KEY := not_not.mp (bailIf_ok_iff.mp hty)
      let r : ChunkRecord := ⟨⟨key.objectid, hfits.1⟩, ⟨key.offset, hfits.2.2⟩, item⟩
      have hr : r.key = key := by rw [ChunkRecord.key, ← hty]
      obtain ⟨d, hd⟩ := (Bytes.hasAt_iff hoff.le).mp hat
      have hrest : d = arr.drop (off + KEY_SIZE) := by
        have := congrArg (List.drop KEY_SIZE) hd
        rwa [List.drop_left' key.length_bytes, List.drop_drop] at this
      refine ⟨r, rfl, ?_, ?_⟩
      · rw [Layout.length_enc, Layout.length_enc]
        show off + KEY_SIZE + (item.front.length + item.last.uuid.1.length) =
          off + ((r.key.bytes ++ item.front).length + item.last.uuid.1.length)
        rw [List.length_append, Key.length_bytes]
        omega
      · obtain ⟨⟨e, he⟩, hagree⟩ := hitem
        rw [← hrest] at he hagree
        rw [← hd, ← hr]
        refine ⟨?_, ?_⟩
        · rw [← he]
          show r.key.bytes ++ item.front <+: r.key.bytes ++ (item.front ++ e)
          rw [← List.append_assoc]
          exact List.prefix_append _ _
        · show (r.key.bytes ++ item.front) ++ item.last.uuid.1 <+: r.key.bytes ++ d ∨
            r.key.bytes ++ d <+: (r.key.bytes ++ item.front) ++ item.last.uuid.1
          rw [List.append_assoc, List.prefix_append_right_inj, List.prefix_append_right_inj]
          exact hagree
    · rintro ⟨r, rfl, rfl, hr⟩
      have hfront : arr.HasAt off (r.key.bytes ++ r.item.front) := (Bytes.hasAt_iff hoff.le).mpr hr.1
      have hkey := Key.parse_of_hasAt hfront.left r.fits_key
      have hbail : bailIf (r.key.ty ≠ CHUNK_ITEM_KEY)
          (.msg s!"corrupt sys_chunk_array: key type {r.key.ty}") = .ok () := if_neg (not_not.mpr rfl)
      obtain ⟨d, hd⟩ := (Bytes.hasAt_iff hoff.le).mp hfront.left
      have hrest : d = arr.drop (off + KEY_SIZE) := by
        have := congrArg (List.drop KEY_SIZE) hd
        rwa [List.drop_left' r.key.length_bytes, List.drop_drop] at this
      have hitem : chunkItems.Begins (arr.drop (off + KEY_SIZE)) r.item := by
        obtain ⟨hpre, hagree⟩ := hr
        rw [← hd] at hpre hagree
        rw [← hrest]
        refine ⟨(List.prefix_append_right_inj r.key.bytes).mp hpre, ?_⟩
        change (r.key.bytes ++ r.item.front) ++ r.item.last.uuid.1 <+: r.key.bytes ++ d ∨
          r.key.bytes ++ d <+: (r.key.bytes ++ r.item.front) ++ r.item.last.uuid.1 at hagree
        rw [List.append_assoc, List.prefix_append_right_inj, List.prefix_append_right_inj] at hagree
        exact hagree
      have hchunk : Chunk.parse r.key.offset (arr.drop (off + KEY_SIZE)) =
          .ok (r.chunk, (chunkItems.enc r.item).length) :=
        Chunk.parse_ok_iff.mpr ⟨r.item, rfl, rfl, hitem⟩
      simp only [sysChunkAt, hkey, hbail, hchunk, bind, Except.bind]
      rw [Layout.length_enc, Layout.length_enc]
      show Except.ok (r.chunk, off + KEY_SIZE + (r.item.front.length + r.item.last.uuid.1.length)) =
        .ok (r.chunk, off + ((r.key.bytes ++ r.item.front).length + r.item.last.uuid.1.length))
      rw [List.length_append, Key.length_bytes]
      congr 2
      omega

end Fs

/-! ### The chunk map -/

/-- The chunk is the last of the list with its start. -/
def LastWith (cs : List Chunk) (c : Chunk) : Prop :=
  ∃ before after, cs = before ++ c :: after ∧ ∀ d ∈ after, d.start ≠ c.start

theorem lastWith_append_singleton {cs : List Chunk} {c d : Chunk} :
    LastWith (cs ++ [c]) d ↔ d = c ∨ LastWith cs d ∧ d.start ≠ c.start := by
  constructor
  · rintro ⟨before, after, heq, hall⟩
    rcases List.eq_nil_or_concat after with rfl | ⟨after, x, rfl⟩
    · exact .inl (List.append_singleton_inj.mp heq).2.symm
    · rw [List.concat_eq_append, ← List.cons_append, ← List.append_assoc] at heq
      obtain ⟨rfl, rfl⟩ := List.append_singleton_inj.mp heq
      refine .inr ⟨⟨before, after, rfl, fun y hy => hall y (by simp [hy])⟩, ?_⟩
      exact (hall c (by simp)).symm
  · rintro (rfl | ⟨⟨before, after, rfl, hall⟩, hne⟩)
    · exact ⟨cs, [], rfl, nofun⟩
    · refine ⟨before, after ++ [c], by simp, fun y hy => ?_⟩
      rcases List.mem_append.mp hy with hy | hy
      · exact hall y hy
      · obtain rfl := List.mem_singleton.mp hy
        exact hne.symm

/-- Of the chunks put in a map, it has for each start the last. -/
theorem insertChunks_spec (cs : List Chunk) :
    Mapped (cs.foldl (fun m c => insertChunk c m) []) ∧
      ∀ c, c ∈ cs.foldl (fun m c => insertChunk c m) [] ↔ LastWith cs c := by
  induction cs using List.reverseRecOn with
  | nil =>
    refine ⟨List.Pairwise.nil, fun c => iff_of_false List.not_mem_nil ?_⟩
    rintro ⟨before, after, heq, -⟩
    simp at heq
  | append_singleton cs c ih =>
    rw [List.foldl_append]
    refine ⟨ih.1.insertChunk, fun d => ?_⟩
    rw [lastWith_append_singleton, ← ih.2 d]
    exact mem_insertChunk ih.1

/-- A string of whole records makes the map of their chunks, of each start the last, and
nothing else makes one, unless the last uuid is cut. It is then that a chunk is said to
take more bytes than there are. -/
theorem sysChunks_exact_iff (arr : Bytes) :
    (∀ rs, arr = chunkRecords.encAll rs → ∃ cs, Fs.sysChunks arr arr.length 0 [] = .ok cs ∧
      Mapped cs ∧ ∀ c, c ∈ cs ↔ LastWith (rs.map ChunkRecord.chunk) c) ∧
    (∀ off key, Key.parse arr off = .ok key → off + KEY_SIZE ≤ arr.length) ∧
    (((∃ cs, Fs.sysChunks arr arr.length 0 [] = .ok cs) ↔ ∃ rs, arr = chunkRecords.encAll rs) ↔
      ¬ chunkRecords.Cut arr) ∧
    ∀ start (b : Bytes), (∀ c used, Chunk.parse start b = .ok (c, used) → used ≤ b.length) ↔
      ¬ ∃ r k, k < 16 ∧ b = chunkItems.front r ++ (chunkItems.back r).take k := by
  have hmap : (∃ cs, Fs.sysChunks arr arr.length 0 [] = .ok cs) ↔
      ∃ cs, Layout.loop Fs.sysChunkAt arr arr.length 0 = .ok cs := by
    rw [Fs.sysChunks_eq]
    cases Layout.loop Fs.sysChunkAt arr arr.length 0 <;> simp [Except.map]
  refine ⟨?_, ?_, ?_, ?_⟩
  · rintro rs rfl
    obtain ⟨hmapped, hmem⟩ := insertChunks_spec (rs.map ChunkRecord.chunk)
    refine ⟨_, ?_, hmapped, hmem⟩
    rw [Fs.sysChunks_eq, Layout.loop_encAll Fs.chunkRecords_parses]
    rfl
  · intro off key hkey
    have hle := (Key.parse_ok hkey).2.le
    rwa [Key.length_bytes] at hle
  · rw [hmap]
    exact Layout.exact_iff Fs.chunkRecords_parses arr
  · intro start b
    constructor
    · rintro hle ⟨r, k, hk, rfl⟩
      have hpos : k < (chunkItems.back r).length := by
        rw [show (chunkItems.back r).length = 16 from r.last.uuid.2]
        exact hk
      have := hle _ _ (Chunk.parse_ok_iff.mpr ⟨r, rfl, rfl, Layout.begins_cut r k⟩)
      simp at this
      omega
    · intro hcut c used hc
      obtain ⟨r, rfl, rfl, hr⟩ := Chunk.parse_ok_iff.mp hc
      rcases Layout.begins_cases hr with ⟨d, rfl⟩ | ⟨k, hk, rfl⟩
      · rw [List.length_append]
        exact Nat.le_add_right _ _
      · rw [show (chunkItems.back r).length = 16 from r.last.uuid.2] at hk
        exact absurd ⟨r, k, hk, rfl⟩ hcut

/-- A chunk of one stripe, without the stripe's uuid. -/
def cutChunk : Bytes := List.replicate 44 0 ++ ([1, 0] ++ List.replicate 18 0)

def cutArray : Bytes := (Key.mk 0 CHUNK_ITEM_KEY 0).bytes ++ cutChunk

/-- It is taken, and said to be longer than it is. -/
theorem sysChunks_cut : Fs.sysChunks cutArray cutArray.length 0 [] = .ok [⟨0, 0, 0, [(0, 0)]⟩] ∧
    (¬ ∃ rs, cutArray = chunkRecords.encAll rs) ∧
    Chunk.parse 0 cutChunk = .ok (⟨0, 0, 0, [(0, 0)]⟩, 80) ∧ cutChunk.length = 64 := by
  have hrun : Fs.sysChunks cutArray cutArray.length 0 [] = .ok [⟨0, 0, 0, [(0, 0)]⟩] := by
    decide +kernel
  have hloop : Layout.loop Fs.sysChunkAt cutArray cutArray.length 0 = .ok [⟨0, 0, 0, [(0, 0)]⟩] := by
    decide +kernel
  let zeros (n : Nat) : BytesOf n := ⟨List.replicate n 0, List.length_replicate⟩
  let last : Stripe := ⟨⟨0, by decide⟩, ⟨0, by decide⟩, zeros 16⟩
  let item : ChunkItem := ⟨⟨0, by decide⟩, zeros 16, ⟨0, by decide⟩, zeros 12, zeros 2, [], last, by decide⟩
  have hcut : chunkRecords.Cut cutArray :=
    ⟨[], ⟨⟨0, by decide⟩, ⟨0, by decide⟩, item⟩, 0, by decide, by decide +kernel⟩
  refine ⟨hrun, fun hwhole => ?_, by decide +kernel, by decide⟩
  exact (Layout.exact_iff Fs.chunkRecords_parses cutArray).mp (iff_of_true ⟨_, hloop⟩ hwhole) hcut

end BtrfsPeek
