import BtrfsPeek.Fs.Volume
import Mathlib.Data.List.Nodup

/-!
# Well-formed filesystems

A volume is well formed where each linked tree is in order (`Volume.TreeOk`): its
directories are indexed by order and by the hash of their names, alike, and
every entry leads to an inode of the type it says, or to another subvolume. Then
what is listed in a directory is what is looked up there (`lookup_of_index`),
and it leads inside again (`Inside.of_entry`).
-/

namespace BtrfsPeek

open Effect SearchTree

variable {β : Type}

/-- What an entry says of the type of the inode it leads to. -/
def TypeAgrees (ftype : Nat) (i : Inode) : Prop :=
  (ftype = FT_DIR ↔ i.isDir = true) ∧ (ftype = FT_SYMLINK ↔ i.isSymlink = true)

instance (ftype : Nat) (i : Inode) : Decidable (TypeAgrees ftype i) :=
  inferInstanceAs (Decidable (_ ∧ _))

namespace Volume

/-- The entry leads to an inode of the same tree, which is of the type it says, or
to another subvolume. -/
def Leads (v : Volume) (dir : Loc) (e : DirEntry) : Prop :=
  (e.location.ty = INODE_ITEM_KEY ∧
    Returns (v.inode ⟨dir.tree, e.location.objectid⟩) (TypeAgrees e.ftype)) ∨
  e.location.ty = ROOT_ITEM_KEY

instance (v : Volume) (dir : Loc) (e : DirEntry) : Decidable (v.Leads dir e) :=
  inferInstanceAs (Decidable (_ ∨ _))

/-- A directory with entries. They have different names, and each is found by its
name's hash. -/
structure DirOk (X : Crates) (v : Volume) (dir : Loc) : Prop where
  isDir : Returns (v.inode dir) fun i => i.isDir = true
  names : Returns (v.index dir) fun es => (es.map DirEntry.name).Nodup
  leads : Returns (v.index dir) fun es => ∀ e ∈ es, v.Leads dir e
  hashed : Returns (v.index dir) fun es => ∀ e ∈ es,
    Returns (v.hashed dir (nameHash X e.name)) fun ds => e ∈ ds

/-- A subvolume tree in order. -/
structure TreeOk (X : Crates) (v : Volume) (t : Nat) : Prop where
  /-- Its root is a directory. -/
  root : Returns (v.tree t) fun r => Returns (v.inode ⟨t, r.rootDirid⟩) fun i => i.isDir = true
  dirs : ∀ x ∈ v.items t, x.1.ty = DIR_INDEX_KEY → DirOk X v ⟨t, x.1.objectid⟩
  /-- What is found by a hash is in the index, and has that hash. -/
  hashes : ∀ x ∈ v.items t, x.1.ty = DIR_ITEM_KEY → Returns (parseDirEntries x.2) fun ds =>
    Returns (v.index ⟨t, x.1.objectid⟩) fun es => ∀ d ∈ ds, d ∈ es ∧ nameHash X d.name = x.1.offset
  /-- No symlink is longer than its target may be. -/
  inodes : ∀ x ∈ v.items t, x.1.ty = INODE_ITEM_KEY → Returns (Inode.parse x.2) fun i =>
    i.isSymlink = true → i.size ≤ Fs.MAX_TARGET
  extents : ∀ x ∈ v.items t, x.1.ty = EXTENT_DATA_KEY →
    Returns (Extent.parse x.1.offset x.2) fun _ => True

/-- Every tree that is linked is in order, and none has the placeholder's number. -/
structure WellFormed (X : Crates) (v : Volume) : Prop where
  tree : ∀ t, v.Linked t → TreeOk X v t
  placeholder : v.rootItem 0 = none

instance (X : Crates) (v : Volume) (dir : Loc) : Decidable (DirOk X v dir) :=
  decidable_of_iff (_ ∧ _ ∧ _ ∧ _)
    ⟨fun ⟨h₁, h₂, h₃, h₄⟩ => ⟨h₁, h₂, h₃, h₄⟩, fun ⟨h₁, h₂, h₃, h₄⟩ => ⟨h₁, h₂, h₃, h₄⟩⟩

instance (X : Crates) (v : Volume) (t : Nat) : Decidable (TreeOk X v t) :=
  decidable_of_iff (_ ∧ _ ∧ _ ∧ _ ∧ _)
    ⟨fun ⟨h₁, h₂, h₃, h₄, h₅⟩ => ⟨h₁, h₂, h₃, h₄, h₅⟩,
      fun ⟨h₁, h₂, h₃, h₄, h₅⟩ => ⟨h₁, h₂, h₃, h₄, h₅⟩⟩

/-- The trees that are linked are among those that hold `FS_TREE_OBJECTID` and are
closed under ROOT_REFs. -/
theorem linked_of_closed {v : Volume} {S : List Nat} (htop : FS_TREE_OBJECTID ∈ S)
    (hrefs : ∀ x ∈ v.roots, x.1.ty = ROOT_REF_KEY → x.1.objectid ∈ S → x.1.offset ∈ S) {t : Nat}
    (h : v.Linked t) : t ∈ S := by
  induction h with
  | top => exact htop
  | @nested tree child _ href ih =>
    obtain ⟨d, hd⟩ := Option.isSome_iff_exists.mp href
    obtain ⟨x, hx, -⟩ := Option.map_eq_some_iff.mp hd
    obtain ⟨hmem, hkey⟩ := mem_inRange_self.mp (List.mem_of_mem_head? hx)
    have := hrefs x hmem (by rw [hkey]) (by rw [hkey]; exact ih)
    rwa [hkey] at this

variable {v : Volume} {X : Crates} {dir : Loc} {d : DirEntry} {e : Entry}

theorem tree_placeholder (h : v.rootItem 0 = none) :
    v.tree 0 = .error (.msg "subvolume tree 0 does not exist") := by
  rw [tree, h]
  rfl

theorem WellFormed.not_placeholder (h : v.WellFormed X) {t : Nat} (ht : v.Linked t) : t ≠ 0 := by
  rintro rfl
  have := (h.tree 0 ht).root
  rw [tree_placeholder h.placeholder] at this
  exact this

/-! ## Entries -/

theorem entry_name (h : v.entry dir d = .ok e) : e.name = d.name := by
  unfold entry at h
  split_ifs at h
  · cases h; rfl
  · obtain ⟨r, -, h⟩ := except_bind_ok.mp h
    cases h; rfl
  · cases h; rfl

/-- The location is the placeholder, or in a linked tree. -/
def Inside (v : Volume) (loc : Loc) : Prop := ¬ Fs.isPlaceholder loc → v.Linked loc.tree

theorem inside_placeholder : v.Inside ⟨0, 0⟩ := fun h => absurd rfl h

theorem inside_root {r : Loc} (h : v.root = .ok r) : v.Inside r := by
  obtain ⟨t, -, h⟩ := except_bind_ok.mp h
  cases h
  exact fun _ => .top

/-- Entries of what is inside lead inside. -/
theorem Inside.of_entry (hdir : v.Linked dir.tree) (h : v.entry dir d = .ok e) : v.Inside e.loc := by
  unfold entry at h
  split_ifs at h with hty href
  · cases h
    exact fun _ => hdir
  · obtain ⟨r, -, h⟩ := except_bind_ok.mp h
    cases h
    exact fun _ => .nested hdir href
  · cases h
    exact inside_placeholder

/-- What is looked up leads inside. -/
theorem Inside.of_lookup {name : Bytes} (hdir : v.Inside dir)
    (h : v.lookup X dir name = .ok (some e)) : v.Inside e.loc := by
  unfold lookup at h
  split_ifs at h with hp
  · cases h
  · obtain ⟨-, -, h⟩ := except_bind_ok.mp h
    obtain ⟨es, -, h⟩ := except_bind_ok.mp h
    split at h
    · cases h
    · obtain ⟨e', he, h⟩ := except_bind_ok.mp h
      cases h
      exact .of_entry (hdir hp) he

/-! ## Listing and looking up -/

/-- What is listed are the entries of the index. -/
theorem mem_readdir {es : List Entry} (h : v.readdir dir = .ok es) (he : e ∈ es) :
    ¬ Fs.isPlaceholder dir ∧ ∃ raw, v.index dir = .ok raw ∧ ∃ d ∈ raw, v.entry dir d = .ok e := by
  unfold readdir at h
  split_ifs at h with hp
  · cases h
    exact absurd he List.not_mem_nil
  · obtain ⟨-, -, h⟩ := except_bind_ok.mp h
    obtain ⟨raw, hraw, h⟩ := except_bind_ok.mp h
    obtain ⟨out, hout, h⟩ := except_bind_ok.mp h
    cases h
    rw [(List.perm_insertionSort _ _).mem_iff] at he
    obtain ⟨d, hd, hde⟩ := exists_of_mem_mapM hout he
    exact ⟨hp, raw, hraw, d, hd, hde⟩

/-- A directory that has entries is in order. -/
theorem TreeOk.dirOk (h : TreeOk X v dir.tree) {raw : List DirEntry} (hraw : v.index dir = .ok raw)
    (hd : d ∈ raw) : DirOk X v dir := by
  obtain ⟨x, hx, -⟩ := (mem_gather hraw).mp hd
  obtain ⟨hx, hobj, hty, -⟩ := mem_itemsOf.mp hx
  have := h.dirs x hx hty
  rwa [hobj] at this

/-- What is indexed is found by its name. -/
theorem TreeOk.find_hashed (h : TreeOk X v dir.tree) {raw : List DirEntry}
    (hraw : v.index dir = .ok raw) (hd : d ∈ raw) : ∃ ds, v.hashed dir (nameHash X d.name) = .ok ds ∧
      ds.find? (·.name = d.name) = some d := by
  have hdir := h.dirOk hraw hd
  have hnames := hdir.names
  have hhashed := hdir.hashed
  rw [hraw] at hnames hhashed
  obtain ⟨ds, hds, hmem⟩ := returns_iff.mp (hhashed d hd)
  refine ⟨ds, hds, ?_⟩
  -- Nothing else under the hash has the name, since the index has it once.
  have honly : ∀ d' ∈ ds, d'.name = d.name → d' = d := by
    intro d' hd' hn
    unfold hashed at hds
    split at hds
    · cases hds
      exact absurd hd' List.not_mem_nil
    · rename_i item hitem
      obtain ⟨x, hx, rfl⟩ := Option.map_eq_some_iff.mp hitem
      obtain ⟨hx, hkey⟩ := mem_inRange_self.mp (List.mem_of_mem_head? hx)
      have hback := h.hashes x hx (by rw [hkey])
      rw [hds, hkey] at hback
      obtain ⟨es, hes, hin⟩ := returns_iff.mp (show Returns (v.index dir) _ from hback)
      rw [hraw] at hes
      cases hes
      exact List.inj_on_of_nodup_map hnames (hin d' hd').1 hd hn
  cases hf : ds.find? (·.name = d.name) with
  | none => exact absurd (decide_eq_true rfl) (List.find?_eq_none.mp hf d hmem)
  | some d' =>
    have hn : d'.name = d.name := by simpa using List.find?_some hf
    rw [honly d' (List.mem_of_find?_eq_some hf) hn]

/-- What is indexed is looked up as it is listed. -/
theorem TreeOk.lookup_of_index (h : TreeOk X v dir.tree) (hp : ¬ Fs.isPlaceholder dir)
    {raw : List DirEntry} (hraw : v.index dir = .ok raw) (hd : d ∈ raw) (he : v.entry dir d = .ok e) :
    v.lookup X dir d.name = .ok (some e) := by
  obtain ⟨ds, hds, hfind⟩ := h.find_hashed hraw hd
  obtain ⟨r, hr, -⟩ := returns_iff.mp h.root
  rw [lookup, if_neg hp, hr, hds]
  simp only [hfind, he, bind, Except.bind]
  rfl

end Volume

end BtrfsPeek
