import BtrfsPeek.Fs.Paths
import BtrfsPeek.Fs.Usable

/-!
# Reachable locations

What is reached from the root by listing directories (`Fs.Reachable`) is in a
linked tree, and has an inode there, or it is the placeholder of a subvolume
nested in a snapshot. On a well-formed filesystem every operation succeeds on
the former. On the placeholder those do that know it, and `extents` and what
uses it fail (`Fs.reachable_inOrder_iff`).
-/

namespace BtrfsPeek

open Effect SearchTree

variable {β : Type}

namespace Volume

variable {v : Volume} {X : Crates} {loc dir : Loc}

/-- The placeholder, or an inode of a linked tree. -/
def Present (v : Volume) (loc : Loc) : Prop :=
  ¬ Fs.isPlaceholder loc → v.Linked loc.tree ∧ ∃ i, v.inode loc = .ok i

theorem Present.inside (h : v.Present loc) : v.Inside loc := fun hp => (h hp).1

theorem present_root (hw : v.WellFormed X) {r : Loc} (h : v.root = .ok r) : v.Present r := by
  obtain ⟨t, ht, h⟩ := except_bind_ok.mp h
  cases h
  obtain ⟨r, hr, hi⟩ := returns_iff.mp (hw.tree _ .top).root
  rw [ht] at hr
  cases hr
  obtain ⟨i, hi, -⟩ := returns_iff.mp hi
  exact fun _ => ⟨.top, i, hi⟩

/-- What an entry of a linked tree leads to. -/
theorem entry_ok (hw : v.WellFormed X) (hdir : v.Linked dir.tree) (d : DirEntry) :
    ∃ e, v.entry dir d = .ok e := by
  unfold entry
  split_ifs with hty href
  · exact ⟨_, rfl⟩
  · obtain ⟨r, hr, -⟩ := returns_iff.mp (hw.tree _ (.nested hdir href)).root
    rw [hr]
    exact ⟨_, rfl⟩
  · exact ⟨_, rfl⟩

theorem present_entry (hw : v.WellFormed X) (hdir : v.Linked dir.tree) {d : DirEntry} {e : Entry}
    (hl : v.Leads dir d) (h : v.entry dir d = .ok e) : v.Present e.loc := by
  unfold entry at h
  split_ifs at h with hty href
  · cases h
    rcases hl with ⟨-, hi⟩ | hroot
    · obtain ⟨i, hi, -⟩ := returns_iff.mp hi
      exact fun _ => ⟨hdir, i, hi⟩
    · exact absurd hroot hty
  · obtain ⟨r, hr, h⟩ := except_bind_ok.mp h
    cases h
    obtain ⟨r', hr', hi⟩ := returns_iff.mp (hw.tree _ (.nested hdir href)).root
    rw [hr] at hr'
    cases hr'
    obtain ⟨i, hi, -⟩ := returns_iff.mp hi
    exact fun _ => ⟨.nested hdir href, i, hi⟩
  · cases h
    exact fun hp => absurd rfl hp

theorem present_listed (hw : v.WellFormed X) (hdir : v.Inside dir) {es : List Entry} {e : Entry}
    (h : v.readdir dir = .ok es) (he : e ∈ es) : v.Present e.loc := by
  obtain ⟨hp, raw, hraw, d, hd, hde⟩ := mem_readdir h he
  have hleads := ((hw.tree _ (hdir hp)).dirOk hraw hd).leads
  rw [hraw] at hleads
  exact present_entry hw (hdir hp) (hleads d hd) hde

/-! ## The operations on a linked tree -/

section tree

variable (hw : v.WellFormed X) (hdir : v.Linked dir.tree)

include hw hdir

theorem tree_ok : ∃ r, v.tree dir.tree = .ok r := by
  obtain ⟨r, hr, -⟩ := returns_iff.mp (hw.tree _ hdir).root
  exact ⟨r, hr⟩

theorem index_ok : ∃ raw, v.index dir = .ok raw := by
  by_cases h : ∃ x ∈ v.items dir.tree, x.1.objectid = dir.ino ∧ x.1.ty = DIR_INDEX_KEY
  · obtain ⟨x, hx, hobj, hty⟩ := h
    have hd := (hw.tree _ hdir).dirs x hx hty
    rw [hobj] at hd
    obtain ⟨raw, hraw, -⟩ := returns_iff.mp hd.names
    exact ⟨raw, hraw⟩
  · have hnone : itemsOf (v.items dir.tree) dir.ino DIR_INDEX_KEY = [] := by
      rw [List.eq_nil_iff_forall_not_mem]
      intro x hx
      obtain ⟨hx, hobj, hty, -⟩ := mem_itemsOf.mp hx
      exact h ⟨x, hx, hobj, hty⟩
    rw [index, hnone]
    exact ⟨[], rfl⟩

theorem readdir_ok : ∃ es, v.readdir dir = .ok es := by
  unfold readdir
  split_ifs
  · exact ⟨[], rfl⟩
  · obtain ⟨r, hr⟩ := tree_ok hw hdir
    obtain ⟨raw, hraw⟩ := index_ok hw hdir
    obtain ⟨out, hout⟩ := mapM_ok_of_forall fun d (_ : d ∈ raw) => entry_ok hw hdir d
    rw [hr, hraw]
    show ∃ es, (raw.mapM (v.entry dir) >>= fun out => pure (out.insertionSort byName)) = .ok es
    rw [hout]
    exact ⟨_, rfl⟩

theorem hashed_ok (hash : Nat) : ∃ ds, v.hashed dir hash = .ok ds := by
  unfold hashed
  cases hi : itemAt (v.items dir.tree) ⟨dir.ino, DIR_ITEM_KEY, hash⟩ with
  | none => exact ⟨[], rfl⟩
  | some item =>
    obtain ⟨x, hx, rfl⟩ := Option.map_eq_some_iff.mp hi
    obtain ⟨hx, hkey⟩ := mem_inRange_self.mp (List.mem_of_mem_head? hx)
    obtain ⟨ds, hds, -⟩ := returns_iff.mp ((hw.tree _ hdir).hashes x hx (by rw [hkey]))
    exact ⟨ds, hds⟩

theorem lookup_ok (name : Bytes) : ∃ o, v.lookup X dir name = .ok o := by
  unfold lookup
  split_ifs
  · exact ⟨none, rfl⟩
  · obtain ⟨r, hr⟩ := tree_ok hw hdir
    obtain ⟨ds, hds⟩ := hashed_ok hw hdir (nameHash X name)
    rw [hr, hds]
    simp only [bind, Except.bind]
    cases ds.find? (·.name = name) with
    | none => exact ⟨none, rfl⟩
    | some d =>
      obtain ⟨e, he⟩ := entry_ok hw hdir d
      exact ⟨some e, by simp only [he]; rfl⟩

theorem extents_ok : ∃ exts, v.extents dir = .ok exts ∧
    ∀ e ∈ exts, ∃ x ∈ v.items dir.tree, x.1.ty = EXTENT_DATA_KEY ∧
      Extent.parse x.1.offset x.2 = .ok e := by
  obtain ⟨r, hr⟩ := tree_ok hw hdir
  have hone : ∀ x ∈ itemsOf (v.items dir.tree) dir.ino EXTENT_DATA_KEY,
      ∃ es, (Extent.parse x.1.offset x.2).map (fun e => [e]) = .ok es := by
    intro x hx
    obtain ⟨hx, -, hty, -⟩ := mem_itemsOf.mp hx
    obtain ⟨e, he, -⟩ := returns_iff.mp ((hw.tree _ hdir).extents x hx hty)
    exact ⟨[e], by rw [he]; rfl⟩
  obtain ⟨exts, hexts⟩ : ∃ exts, gather
      (fun (k : Key) d => (Extent.parse k.offset d).map fun e => [e])
      (itemsOf (v.items dir.tree) dir.ino EXTENT_DATA_KEY) = .ok exts := by
    apply gather_ok
    exact hone
  have hall : v.extents dir = .ok exts := by
    rw [extents, hr]
    exact hexts
  refine ⟨exts, hall, fun e he => ?_⟩
  obtain ⟨x, hx, l, hl, he⟩ := (mem_gather hexts).mp he
  obtain ⟨hx, -, hty, -⟩ := mem_itemsOf.mp hx
  refine ⟨x, hx, hty, ?_⟩
  cases hp : Extent.parse x.1.offset x.2 with
  | error e' => rw [hp] at hl; cases hl
  | ok e' =>
    rw [hp] at hl
    obtain rfl : [e'] = l := Except.ok.inj hl
    rw [List.mem_singleton.mp he]

end tree

/-- The size of a symlink is bounded. -/
theorem size_of_symlink (hw : v.WellFormed X) (hp : ¬ Fs.isPlaceholder loc)
    (hloc : v.Linked loc.tree) {i : Inode} (hi : v.inode loc = .ok i) (hs : i.isSymlink = true) :
    i.size ≤ Fs.MAX_TARGET := by
  rw [inode, if_neg hp] at hi
  obtain ⟨r, -, hi⟩ := except_bind_ok.mp hi
  cases ho : itemAt (v.items loc.tree) ⟨loc.ino, INODE_ITEM_KEY, 0⟩ with
  | none => rw [ho] at hi; cases hi
  | some item =>
    rw [ho] at hi
    obtain ⟨x, hx, rfl⟩ := Option.map_eq_some_iff.mp ho
    obtain ⟨hx, hkey⟩ := mem_inRange_self.mp (List.mem_of_mem_head? hx)
    have hsize := (hw.tree _ hloc).inodes x hx (by rw [hkey])
    rw [show Inode.parse x.2 = .ok i from hi] at hsize
    exact hsize hs

end Volume

/-- A row that `ls` and `stat` print, before its numbers are formatted. -/
structure Row where
  path : Text
  ty : String
  mode : Nat
  uid : Nat
  gid : Nat
  size : Nat
  nlink : Nat
  mtimeSec : Int
  inode : Nat
  subvolumeId : Nat
  target : Option Text
  deriving DecidableEq, Repr

namespace Fs

variable (fs : Fs β)

def describe (loc : Loc) (path : Text) (subvol : Bool) : FsM β Row := do
  let i ← fs.inode loc
  let row : Row :=
    { path, ty := if subvol then "subvolume" else i.typeName, mode := i.mode &&& 0o7777,
      uid := i.uid, gid := i.gid, size := i.size, nlink := i.nlink, mtimeSec := i.mtimeSec,
      inode := loc.ino, subvolumeId := loc.tree, target := none }
  if i.isSymlink then do
    let target ← fs.readSymlinkTarget loc
    pure { row with target := some (Utf8.fromUtf8Lossy target) }
  else pure row

/-- What `stat` prints of the location its path resolved to: a row and the extents,
of which it counts the number and lists the kinds of compression. -/
def stat (loc : Loc) (path : Text) : FsM β (Row × List Extent) := do
  let row ← fs.describe loc path false
  let exts ← fs.extents loc
  pure (row, exts)

/-- The root, and what is listed in what is reachable. -/
inductive Reachable (I : FsState β → Prop) : Loc → Prop
  | root {s : FsState β} {r : Loc} : I s → Result.value (fs.root s) = .ok r → Reachable I r
  | listed {s : FsState β} {dir : Loc} {es : List Entry} {e : Entry} : Reachable I dir → I s →
      Result.value (fs.readdir dir s) = .ok es → e ∈ es → Reachable I e.loc

/-- The five operations return, whatever else was read before. -/
structure Usable (I : FsState β → Prop) (loc : Loc) : Prop where
  inode : Succeeds I (fs.inode loc)
  readdir : Succeeds I (fs.readdir loc)
  lookup : ∀ name, Succeeds I (fs.lookup loc name)
  extents : Succeeds I (fs.extents loc)
  readRange : ∀ {τ : Type} {sink : Sink τ}, sink.Takes → ∀ start stop,
    Flows I (fs.readRange loc start stop sink)

/-- It behaves as an empty directory in the five operations. -/
structure EmptyDir (I : FsState β → Prop) (loc : Loc) : Prop where
  inode : ∃ i, Yields I (fs.inode loc) (.ok i) ∧ i.isDir = true
  readdir : Yields I (fs.readdir loc) (.ok [])
  lookup : ∀ name, Yields I (fs.lookup loc name) (.ok none)
  extents : Yields I (fs.extents loc) (.ok [])
  readBytes : ∀ start stop, Yields I (withLocal [] (fs.readRange loc start stop collect)) (.ok ((), []))

/-- What every reachable location should be. -/
structure InOrder (I : FsState β → Prop) (v : Volume) (loc : Loc) : Prop where
  usable : fs.Usable I loc
  tree : loc.tree = FS_TREE_OBJECTID ∨ isPlaceholder loc ∨ v.Linked loc.tree
  placeholder : isPlaceholder loc → fs.EmptyDir I loc
  stat : ∀ path, Succeeds I (fs.stat loc path)

/-- The extents of the files of the linked trees can be read. -/
def ReadsData (I : FsState β → Prop) (v : Volume) : Prop :=
  ∀ t, v.Linked t → ∀ x ∈ v.items t, x.1.ty = EXTENT_DATA_KEY →
    ∀ e, Extent.parse x.1.offset x.2 = .ok e → fs.Readable I e

variable {fs} {I : FsState β → Prop} {v : Volume} {loc : Loc}

theorem Reachable.present (h : fs.Stores I v) (hw : v.WellFormed fs.crates)
    (hr : fs.Reachable I loc) : v.Present loc := by
  induction hr with
  | root hs hroot =>
    rw [h.root.value hs] at hroot
    exact Volume.present_root hw hroot
  | listed hdir hs hlist he ih =>
    rw [(h.readdir ih.inside).value hs] at hlist
    exact Volume.present_listed hw ih.inside hlist he

theorem Reachable.exists_state (hr : fs.Reachable I loc) : ∃ s, I s := by
  cases hr with
  | root hs _ => exact ⟨_, hs⟩
  | listed _ hs _ _ => exact ⟨_, hs⟩

section linked

variable (h : fs.Stores I v) (hw : v.WellFormed fs.crates) (hd : fs.ReadsData I v)
  (hp : ¬ isPlaceholder loc) (hl : v.Linked loc.tree) {i : Inode} (hi : v.inode loc = .ok i)

include h hw hd hl hi

/-- The operations on an inode of a linked tree. -/
theorem Stores.usable : fs.Usable I loc := by
  have hinode : Yields I (fs.inode loc) (.ok i) := hi ▸ h.inode fun _ => hl
  obtain ⟨es, hes⟩ := Volume.readdir_ok hw hl
  obtain ⟨exts, hexts, hitems⟩ := Volume.extents_ok hw hl
  have hextents : Yields I (fs.extents loc) (.ok exts) := hexts ▸ h.extents hl
  have hread : ∀ e ∈ exts, fs.Readable I e := by
    intro e he
    obtain ⟨x, hx, hty, hparse⟩ := hitems e he
    exact hd _ hl x hx hty e hparse
  refine ⟨hinode.succeeds, (hes ▸ h.readdir fun _ => hl : Yields I _ (.ok es)).succeeds, ?_,
    hextents.succeeds, fun hsink => readRange_succeeds hsink hinode hextents hread⟩
  intro name
  obtain ⟨o, ho⟩ := Volume.lookup_ok hw hl name
  exact (ho ▸ h.lookup (fun _ => hl) name : Yields I _ (.ok o)).succeeds

include hp

theorem Stores.readSymlinkTarget (hs : i.isSymlink = true) :
    Succeeds I (fs.readSymlinkTarget loc) := by
  have hinode : Yields I (fs.inode loc) (.ok i) := hi ▸ h.inode fun _ => hl
  intro s hI
  obtain ⟨s', hI', hrun⟩ := hinode s hI
  rw [Fs.readSymlinkTarget, bind_of_ok hrun, bailIf,
    if_neg (Nat.not_lt.mpr (Volume.size_of_symlink hw hp hl hi hs)), lift_ok_bind]
  have hrange : Flows I (fs.readRange loc 0 i.size collect) :=
    (h.usable hw hd hl hi).readRange takes_collect 0 i.size
  refine Ensures.bind (Ensures.withLocal (Q := fun _ => I) ?_) (fun _ => Ensures.pure fun _ h => h) s' hI'
  exact hrange.mono (fun _ h => h.1) (fun _ _ h => h) fun _ _ h => h

theorem Stores.stat (path : Text) : Succeeds I (fs.stat loc path) := by
  have hu := h.usable hw hd hl hi
  have hinode : Yields I (fs.inode loc) (.ok i) := hi ▸ h.inode fun _ => hl
  have hrow : Succeeds I (fs.describe loc path false) := by
    intro s hI
    obtain ⟨s', hI', hrun⟩ := hinode s hI
    rw [Fs.describe, bind_of_ok hrun]
    dsimp only
    by_cases hs : i.isSymlink = true
    · rw [if_pos hs]
      exact Ensures.bind (h.readSymlinkTarget hw hd hp hl hi hs)
        (fun _ => Ensures.pure fun _ h => h) s' hI'
    · rw [if_neg hs]
      exact hI'
  apply hrow.bind
  intro row
  apply hu.extents.bind
  intro exts
  exact Ensures.pure fun _ h => h

end linked

/-- The placeholder has no extents to look up. -/
theorem Stores.extents_placeholder (h : fs.Stores I v) (hw : v.WellFormed fs.crates)
    (hp : isPlaceholder loc) :
    Yields I (fs.extents loc) (.error (.msg "subvolume tree 0 does not exist")) := by
  have htree := h.tree loc.tree
  rw [show loc.tree = 0 from hp, Volume.tree_placeholder hw.placeholder] at htree
  rw [Fs.extents, show loc.tree = 0 from hp]
  exact htree.bind_error

/-- Whatever is reached from the root by listing directories is in order, unless it
is the placeholder, whose extents are looked up in a tree that does not exist. -/
theorem reachable_inOrder_iff (h : fs.Stores I v) (hw : v.WellFormed fs.crates)
    (hd : fs.ReadsData I v) (hr : fs.Reachable I loc) :
    fs.InOrder I v loc ↔ ¬ isPlaceholder loc := by
  constructor
  · intro ho hp
    obtain ⟨s, hs⟩ := hr.exists_state
    obtain ⟨exts, hv⟩ := ho.usable.extents.value hs
    rw [(h.extents_placeholder hw hp).value hs] at hv
    cases hv
  · intro hp
    obtain ⟨hl, i, hi⟩ := hr.present h hw hp
    exact ⟨h.usable hw hd hl hi, .inr (.inr hl), fun hp' => absurd hp' hp,
      h.stat hw hd hp hl hi⟩

end Fs

namespace Image

/-- A directory of a file of two bytes. -/
def filed : List (Key × Bytes) :=
  [(⟨ROOT_DIR, INODE_ITEM_KEY, 0⟩, inodeItem 0 0o40755),
    (⟨ROOT_DIR, DIR_ITEM_KEY, nameHash crates [0x66]⟩, dirItem 257 1 [0x66]),
    (⟨ROOT_DIR, DIR_INDEX_KEY, 2⟩, dirItem 257 1 [0x66]),
    (⟨257, INODE_ITEM_KEY, 0⟩, inodeItem 2 0o100644),
    (⟨257, EXTENT_DATA_KEY, 0⟩, inlineExtent 2 0 [0x68, 0x69])]

/-- Its items can be written, and are in order; what its extent is, and what it lists. -/
theorem ok_filed : Ascending filed ∧ (leaf FS_TREE filed).length < 2 ^ 32 ∧ (∀ y ∈ filed, y.1.Fits) ∧
    (volume filed).TreeOk crates FS_TREE_OBJECTID ∧
    (∀ x ∈ (volume filed).items FS_TREE_OBJECTID, x.1.ty = EXTENT_DATA_KEY →
      (Extent.parse x.1.offset x.2).toOption = some ⟨0, 2, 2, 0, .inline [0x68, 0x69]⟩) ∧
    Result.value ((fs []).root (cachedLeaves (volumeLeaves filed) ())) =
      .ok ⟨FS_TREE_OBJECTID, ROOT_DIR⟩ ∧
    Result.value ((fs []).readdir ⟨FS_TREE_OBJECTID, ROOT_DIR⟩ (cachedLeaves (volumeLeaves filed) ())) =
      .ok [⟨[0x66], ⟨FS_TREE_OBJECTID, 257⟩, 1, false⟩] := by
  decide +kernel

theorem stores_filed : (fs []).Stores (Cached (volumeLeaves filed) (volume filed)) (volume filed) :=
  stores_volume ok_filed.1 ok_filed.2.1 ok_filed.2.2.1

theorem readsData_filed : (fs []).ReadsData (Cached (volumeLeaves filed) (volume filed)) (volume filed) := by
  intro t ht x hx hty e he
  obtain rfl := List.mem_singleton.mp (linked_volume ht)
  have hext := ok_filed.2.2.2.2.1 x hx hty
  rw [he] at hext
  obtain rfl : e = ⟨0, 2, 2, 0, .inline [0x68, 0x69]⟩ := Option.some.inj hext
  refine ⟨fun raw hraw => ⟨[0x68, 0x69], ?_⟩, fun a n off h => (by cases h), fun a n off h => by cases h⟩
  obtain rfl := ExtentKind.inline.inj hraw
  rfl

theorem reachable_filed : (fs []).Reachable (Cached (volumeLeaves filed) (volume filed)) ⟨FS_TREE_OBJECTID, 257⟩ := by
  have hs := cached_cachedLeaves (volumeLeaves filed) (volume filed) ()
  obtain ⟨-, -, -, -, -, hroot, hlist⟩ := ok_filed
  exact .listed (.root hs hroot) hs hlist List.mem_cons_self

end Image

open Image in
/-- A file is in order. -/
theorem Fs.reachable_inOrder_filed : (fs []).InOrder (Cached (volumeLeaves filed) (volume filed)) (volume filed)
    ⟨FS_TREE_OBJECTID, 257⟩ :=
  (Fs.reachable_inOrder_iff stores_filed (wellFormed_volume ok_filed.2.2.2.1) readsData_filed
    reachable_filed).mpr (by decide)

namespace Image

/-- A directory of one subvolume. -/
def oneSubvol (id : Nat) (name : Bytes) : List (Key × Bytes) :=
  let entry := (Key.mk id ROOT_ITEM_KEY 0).bytes ++ (zeros 10 ++ (Bytes.toLE 2 name.length ++
    (Bytes.toLE 1 FT_DIR ++ name)))
  [(⟨ROOT_DIR, INODE_ITEM_KEY, 0⟩, inodeItem 0 0o40755),
    (⟨ROOT_DIR, DIR_ITEM_KEY, nameHash crates name⟩, entry), (⟨ROOT_DIR, DIR_INDEX_KEY, 2⟩, entry)]

/-- The top-level subvolume holds subvolume 256, which names 257 but is not tied to
it, as a snapshot is not to what was nested in its source. -/
def snapshot : Volume where
  roots := [(⟨FS_TREE_OBJECTID, ROOT_ITEM_KEY, 0⟩, rootItem ROOT_DIR FS_TREE),
    (⟨FS_TREE_OBJECTID, ROOT_REF_KEY, 256⟩, []), (⟨256, ROOT_ITEM_KEY, 0⟩, rootItem ROOT_DIR DATA)]
  items id := if id = FS_TREE_OBJECTID then oneSubvol 256 [0x73] else oneSubvol 257 [0x6E]

def snapshotLeaves : List (Nat × List (Key × Bytes)) :=
  [(ROOT_TREE, snapshot.roots), (FS_TREE, oneSubvol 256 [0x73]), (DATA, oneSubvol 257 [0x6E])]

/-- Its trees can be written, and are in order, and none of them has an extent; what
they list. -/
theorem ok_snapshot : (∀ x ∈ snapshotLeaves, Ascending x.2) ∧
    (∀ x ∈ snapshotLeaves, (leaf x.1 x.2).length < 2 ^ 32) ∧
    (∀ x ∈ snapshotLeaves, ∀ y ∈ x.2, y.1.Fits) ∧
    (∀ x ∈ snapshot.roots, x.1.ty = ROOT_REF_KEY → x.1.objectid ∈ [FS_TREE_OBJECTID, 256] →
      x.1.offset ∈ [FS_TREE_OBJECTID, 256]) ∧
    snapshot.rootItem 0 = none ∧
    (∀ t ∈ [FS_TREE_OBJECTID, 256], snapshot.TreeOk crates t ∧
      (Returns (snapshot.tree t) fun r => snapshotLeaves.lookup r.bytenr = some (snapshot.items t)) ∧
      ∀ x ∈ snapshot.items t, x.1.ty ≠ EXTENT_DATA_KEY) ∧
    Result.value ((fs []).root (cachedLeaves snapshotLeaves ())) = .ok ⟨FS_TREE_OBJECTID, ROOT_DIR⟩ ∧
    Result.value ((fs []).readdir ⟨FS_TREE_OBJECTID, ROOT_DIR⟩ (cachedLeaves snapshotLeaves ())) =
      .ok [⟨[0x73], ⟨256, ROOT_DIR⟩, FT_DIR, true⟩] ∧
    Result.value ((fs []).readdir ⟨256, ROOT_DIR⟩ (cachedLeaves snapshotLeaves ())) =
      .ok [⟨[0x6E], ⟨0, 0⟩, FT_DIR, true⟩] := by
  decide +kernel

theorem linked_snapshot {t : Nat} (h : snapshot.Linked t) : t ∈ [FS_TREE_OBJECTID, 256] :=
  Volume.linked_of_closed (by decide) ok_snapshot.2.2.2.1 h

theorem stores_snapshot : (fs []).Stores (Cached snapshotLeaves snapshot) snapshot := by
  obtain ⟨hasc, hlen, hfit, -, -, htrees, -⟩ := ok_snapshot
  exact stores_leaves rfl (fun t => linked_snapshot) (fun t ht => (htrees t ht).2.1) hasc hlen hfit

theorem wellFormed_snapshot : snapshot.WellFormed crates where
  tree t ht := (ok_snapshot.2.2.2.2.2.1 t (linked_snapshot ht)).1
  placeholder := ok_snapshot.2.2.2.2.1

theorem readsData_snapshot : (fs []).ReadsData (Cached snapshotLeaves snapshot) snapshot := by
  intro t ht x hx hty
  exact absurd hty ((ok_snapshot.2.2.2.2.2.1 t (linked_snapshot ht)).2.2 x hx)

/-- The three directories of the filesystem. -/
theorem reachable_snapshot :
    ∀ loc ∈ ([⟨FS_TREE_OBJECTID, ROOT_DIR⟩, ⟨256, ROOT_DIR⟩, ⟨0, 0⟩] : List Loc),
      (fs []).Reachable (Cached snapshotLeaves snapshot) loc := by
  have hs := cached_cachedLeaves snapshotLeaves snapshot ()
  obtain ⟨-, -, -, -, -, -, htop, hlist, hnested⟩ := ok_snapshot
  have hroot : (fs []).Reachable (Cached snapshotLeaves snapshot) ⟨FS_TREE_OBJECTID, ROOT_DIR⟩ :=
    .root hs htop
  have hsub : (fs []).Reachable (Cached snapshotLeaves snapshot) ⟨256, ROOT_DIR⟩ :=
    .listed hroot hs hlist List.mem_cons_self
  have hnest : (fs []).Reachable (Cached snapshotLeaves snapshot) ⟨0, 0⟩ :=
    .listed hsub hs hnested List.mem_cons_self
  intro loc hloc
  simp only [List.mem_cons, List.not_mem_nil, or_false] at hloc
  rcases hloc with rfl | rfl | rfl
  · exact hroot
  · exact hsub
  · exact hnest

end Image

open Image in
/-- The placeholder in it is listed, and `stat` fails on it. -/
theorem Fs.placeholder_not_inOrder : ∃ (v : Volume) (I : FsState Unit → Prop) (s : FsState Unit)
    (loc : Loc), (fs []).Stores I v ∧ v.WellFormed Image.crates ∧ (fs []).ReadsData I v ∧
    (fs []).Reachable I loc ∧ I s ∧
    Result.value ((fs []).resolve ['/', 's', '/', 'n'] s) = .ok loc ∧
    Result.value ((fs []).stat loc ['/', 's', '/', 'n'] s) =
      .error (.msg "subvolume tree 0 does not exist") ∧ ¬ (fs []).InOrder I v loc := by
  refine ⟨snapshot, _, cachedLeaves snapshotLeaves (), ⟨0, 0⟩, stores_snapshot, wellFormed_snapshot,
    readsData_snapshot, reachable_snapshot ⟨0, 0⟩ (by decide), cached_cachedLeaves _ _ _,
    by decide +kernel, by decide +kernel, ?_⟩
  intro h
  obtain ⟨exts, hv⟩ := h.usable.extents.value (cached_cachedLeaves snapshotLeaves snapshot ())
  have hrun : Result.value ((fs []).extents ⟨0, 0⟩ (cachedLeaves snapshotLeaves ())) =
      .error (.msg "subvolume tree 0 does not exist") := by decide +kernel
  rw [hrun] at hv
  cases hv

end BtrfsPeek
