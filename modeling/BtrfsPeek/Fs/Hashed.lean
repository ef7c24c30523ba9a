import BtrfsPeek.Fs.Paths

/-!
# Two indexes of one directory

A directory has its entries twice: under the hashes of their names, where those whose
names hash alike are packed into one item, and in the order they are listed in. Where the
two encode the same entries (`Volume.SameEntries`), looking a name up gives what the
listing has under it (`Fs.lookup_agrees`).
-/

namespace BtrfsPeek

open Effect SearchTree

variable {β : Type}

/-- In a list without duplicate keys the first with a key is the only one. -/
theorem find?_of_nodup_map {A K : Type} [DecidableEq K] {f : A → K} {l : List A}
    (h : (l.map f).Nodup) {a : A} (ha : a ∈ l) : l.find? (fun b => f b = f a) = some a := by
  cases hf : l.find? (fun b => f b = f a) with
  | none => exact absurd (decide_eq_true rfl) (List.find?_eq_none.mp hf a ha)
  | some b =>
    have hb : f b = f a := by simpa using List.find?_some hf
    rw [List.inj_on_of_nodup_map h (List.mem_of_find?_eq_some hf) ha hb]

namespace Volume

/-- The items of a directory's hashes and those of its index encode the same entries, of
different names, each under its name's hash. -/
structure SameEntries (X : Crates) (v : Volume) (dir : Loc) : Prop where
  names : Returns (v.index dir) fun es => (es.map DirEntry.name).Nodup
  /-- What is under a hash has it, and is in the index. -/
  indexed : ∀ x ∈ v.items dir.tree, x.1.objectid = dir.ino → x.1.ty = DIR_ITEM_KEY →
    Returns (parseDirEntries x.2) fun ds => ∀ d ∈ ds, nameHash X d.name = x.1.offset ∧
      Returns (v.index dir) fun es => d ∈ es
  /-- What is in the index is under some hash. -/
  hashed : Returns (v.index dir) fun es => ∀ d ∈ es, ∃ x ∈ v.items dir.tree,
    x.1.objectid = dir.ino ∧ x.1.ty = DIR_ITEM_KEY ∧ Returns (parseDirEntries x.2) fun ds => d ∈ ds

variable {X : Crates} {v : Volume} {dir : Loc}

theorem itemAt_eq_some {items : List (Key × Bytes)} (ha : Ascending items) {key : Key} {d : Bytes} :
    itemAt items key = some d ↔ (key, d) ∈ items := head?_inRange_self ha

namespace SameEntries

/-- An entry of the index is in the item under its name's hash. -/
theorem item_of_index (h : v.SameEntries X dir) {raw : List DirEntry} (hraw : v.index dir = .ok raw)
    {d : DirEntry} (hd : d ∈ raw) : ∃ item ds,
      (⟨dir.ino, DIR_ITEM_KEY, nameHash X d.name⟩, item) ∈ v.items dir.tree ∧
      parseDirEntries item = .ok ds ∧ d ∈ ds := by
  have hhashed := h.hashed
  rw [hraw] at hhashed
  obtain ⟨⟨key, item⟩, hx, hobj, hty, hparse⟩ := hhashed d hd
  obtain ⟨ds, hds, hmem⟩ := returns_iff.mp hparse
  have hindexed := h.indexed (key, item) hx hobj hty
  rw [hds] at hindexed
  obtain ⟨hhash, -⟩ := hindexed d hmem
  obtain ⟨obj, ty, off⟩ := key
  obtain rfl : obj = dir.ino := hobj
  obtain rfl : ty = DIR_ITEM_KEY := hty
  obtain rfl : nameHash X d.name = off := hhash
  exact ⟨item, ds, hx, hds, hmem⟩

/-- What is under a hash is in the index. -/
theorem index_of_item (h : v.SameEntries X dir) {raw : List DirEntry} (hraw : v.index dir = .ok raw)
    {hash : Nat} {item : Bytes} (hitem : (⟨dir.ino, DIR_ITEM_KEY, hash⟩, item) ∈ v.items dir.tree) :
    ∃ ds, parseDirEntries item = .ok ds ∧ ∀ d ∈ ds, d ∈ raw := by
  obtain ⟨ds, hds, hall⟩ := returns_iff.mp (h.indexed _ hitem rfl rfl)
  refine ⟨ds, hds, fun d hd => ?_⟩
  have := (hall d hd).2
  rwa [hraw] at this

/-- Of what is under its hash a name is found as in the index. -/
theorem find_hashed (h : v.SameEntries X dir) (ha : Ascending (v.items dir.tree))
    {raw : List DirEntry} (hraw : v.index dir = .ok raw) (name : Bytes) :
    ∃ ds, v.hashed dir (nameHash X name) = .ok ds ∧
      ds.find? (·.name = name) = raw.find? (·.name = name) := by
  have hnames := h.names
  rw [hraw] at hnames
  rw [Volume.hashed]
  cases hitem : itemAt (v.items dir.tree) ⟨dir.ino, DIR_ITEM_KEY, nameHash X name⟩ with
  | none =>
    refine ⟨[], rfl, (List.find?_eq_none.mpr fun d hd hname => ?_).symm⟩
    obtain rfl : d.name = name := by simpa using hname
    obtain ⟨item, ds, hmem, -⟩ := h.item_of_index hraw hd
    rw [(itemAt_eq_some ha).mpr hmem] at hitem
    cases hitem
  | some item =>
    obtain ⟨ds, hds, hall⟩ := h.index_of_item hraw ((itemAt_eq_some ha).mp hitem)
    refine ⟨ds, hds, ?_⟩
    cases hfind : ds.find? (·.name = name) with
    | none =>
      refine (List.find?_eq_none.mpr fun d hd hname => ?_).symm
      obtain rfl : d.name = name := by simpa using hname
      -- An entry of the index with this name would be in this item.
      obtain ⟨item', ds', hmem, hds', hd'⟩ := h.item_of_index hraw hd
      rw [(itemAt_eq_some ha).mpr hmem] at hitem
      obtain rfl : item' = item := Option.some.inj hitem
      rw [hds] at hds'
      obtain rfl : ds = ds' := Except.ok.inj hds'
      exact List.find?_eq_none.mp hfind d hd' hname
    | some d =>
      obtain rfl : d.name = name := by simpa using List.find?_some hfind
      exact (find?_of_nodup_map hnames (hall d (List.mem_of_find?_eq_some hfind))).symm

/-- A name is looked up as it is found in the index. -/
theorem lookup_eq (h : v.SameEntries X dir) (hp : ¬ Fs.isPlaceholder dir) {r : TreeRoot}
    (hr : v.tree dir.tree = .ok r) (ha : Ascending (v.items dir.tree)) {raw : List DirEntry}
    (hraw : v.index dir = .ok raw) (name : Bytes) :
    v.lookup X dir name =
      match raw.find? (·.name = name) with
      | none => .ok none
      | some d => (v.entry dir d).map some := by
  obtain ⟨ds, hds, hfind⟩ := h.find_hashed ha hraw name
  rw [lookup, if_neg hp, hr, hds, ← hfind]
  show (match ds.find? (·.name = name) with
    | none => pure none
    | some e => do
      let e ← v.entry dir e
      pure (some e)) = _
  cases ds.find? (·.name = name) with
  | none => rfl
  | some d => cases v.entry dir d <;> rfl

end SameEntries

/-- Entries that are listed are found among those that are listed as in the index. -/
theorem find?_entries {raw : List DirEntry} {es : List Entry} (hnames : (raw.map DirEntry.name).Nodup)
    (hes : raw.mapM (v.entry dir) = .ok es) (name : Bytes) :
    (match raw.find? (·.name = name) with
      | none => .ok none
      | some d => (v.entry dir d).map some) =
    (.ok ((es.insertionSort byName).find? (·.name = name)) : Except Error (Option Entry)) := by
  have hall := mapM_ok_iff.mp hes
  have hname : es.map Entry.name = raw.map DirEntry.name := by
    clear hnames hes
    induction hall with
    | nil => rfl
    | cons hde _ ih => rw [List.map_cons, List.map_cons, ih, entry_name hde]
  have hsorted : ((es.insertionSort byName).map Entry.name).Nodup := by
    rw [((List.perm_insertionSort byName es).map Entry.name).nodup_iff, hname]
    exact hnames
  cases hfind : raw.find? (·.name = name) with
  | none =>
    refine congrArg _ (List.find?_eq_none.mpr fun e he hn => ?_).symm
    obtain ⟨d, hd, hde⟩ := exists_of_mem_mapM hes ((List.mem_insertionSort _).mp he)
    rw [entry_name hde] at hn
    exact List.find?_eq_none.mp hfind d hd hn
  | some d =>
    obtain rfl : d.name = name := by simpa using List.find?_some hfind
    obtain ⟨e, he, hde⟩ := exists_mem_mapM hes (List.mem_of_find?_eq_some hfind)
    have := find?_of_nodup_map hsorted ((List.mem_insertionSort byName).mpr he)
    rw [entry_name hde] at this
    rw [this]
    show (v.entry dir d).map some = _
    rw [hde]
    rfl

end Volume

/-- Where one of a list fails, so does the list, as one of them. -/
theorem exists_error_of_mapM {ε A B : Type} {f : A → Except ε B} {e : ε} : ∀ {l : List A},
    l.mapM f = .error e → ∃ a ∈ l, f a = .error e
  | [], h => nomatch h
  | a :: l, h => by
    rw [List.mapM_cons] at h
    cases ha : f a with
    | error e' =>
      rw [ha] at h
      exact ⟨a, List.mem_cons_self, ha.trans (congrArg _ (Except.error.inj h))⟩
    | ok b =>
      cases hl : l.mapM f with
      | error e' =>
        rw [ha, hl] at h
        obtain ⟨a', ha', he⟩ := exists_error_of_mapM hl
        exact ⟨a', List.mem_cons_of_mem _ ha', he.trans (congrArg _ (Except.error.inj h))⟩
      | ok bs =>
        rw [ha, hl] at h
        exact nomatch h

/-- Looking up a name gives what the listing has under it, or nothing where it has
nothing, and where a directory cannot be listed some name in it cannot be looked up. -/
theorem Fs.lookup_agrees {fs : Fs β} {I : FsState β → Prop} {v : Volume} {dir : Loc}
    (h : fs.StoresRoots I v) (hl : ¬ isPlaceholder dir → fs.StoresTree I v dir.tree)
    (hd : ¬ isPlaceholder dir → v.SameEntries fs.crates dir) :
    ∃ (r : Except Error (List Entry)) (q : Bytes → Except Error (Option Entry)),
      Yields I (fs.readdir dir) r ∧ (∀ name, Yields I (fs.lookup dir name) (q name)) ∧
      (∀ es, r = .ok es → ∀ name, q name = .ok (es.find? (·.name = name))) ∧
      ∀ e, r = .error e → ∃ name, q name = .error e := by
  refine ⟨v.readdir dir, v.lookup fs.crates dir, StoresTree.readdir h hl,
    StoresTree.lookup h hl, ?_⟩
  by_cases hp : isPlaceholder dir
  · rw [Volume.readdir, if_pos hp]
    refine ⟨fun es hes name => ?_, fun e he => by cases he⟩
    obtain rfl : [] = es := Except.ok.inj hes
    rw [Volume.lookup, if_pos hp]
    rfl
  · obtain ⟨raw, hraw, hnames⟩ := returns_iff.mp (hd hp).names
    cases hr : v.tree dir.tree with
    | error e =>
      rw [Volume.readdir, if_neg hp, hr]
      refine ⟨fun es hes => (by cases hes), fun e' he => ⟨[], ?_⟩⟩
      rw [Volume.lookup, if_neg hp, hr]
      exact congrArg _ (Except.error.inj he)
    | ok r =>
      have hlookup (name : Bytes) := (hd hp).lookup_eq hp hr ((hl hp).ascending_items hr) hraw name
      have hreaddir : v.readdir dir =
          (raw.mapM (v.entry dir) >>= fun out => .ok (out.insertionSort byName)) := by
        rw [Volume.readdir, if_neg hp, hr, hraw]
        rfl
      rw [hreaddir]
      cases hes : raw.mapM (v.entry dir) with
      | ok out =>
        refine ⟨fun es hout name => ?_, fun e he => by cases he⟩
        obtain rfl : out.insertionSort byName = es := Except.ok.inj hout
        rw [hlookup, Volume.find?_entries hnames hes]
      | error e =>
        refine ⟨fun es hout => (by cases hout), fun e' he => ?_⟩
        obtain ⟨d, hd, hde⟩ := exists_error_of_mapM hes
        refine ⟨d.name, ?_⟩
        rw [hlookup, find?_of_nodup_map hnames hd]
        show (v.entry dir d).map some = _
        rw [hde]
        exact congrArg _ (Except.error.inj he)

namespace Image

/-- A directory of two files whose names hash alike. -/
def hashAlike : List (Key × Bytes) :=
  [(⟨ROOT_DIR, INODE_ITEM_KEY, 0⟩, inodeItem 0 0o40755),
    (⟨ROOT_DIR, DIR_ITEM_KEY, 2698600408⟩,
      dirItem 257 1 "themt".toUTF8.data.toList ++ dirItem 258 1 "ffmsaqg".toUTF8.data.toList),
    (⟨ROOT_DIR, DIR_INDEX_KEY, 2⟩, dirItem 258 1 "ffmsaqg".toUTF8.data.toList),
    (⟨ROOT_DIR, DIR_INDEX_KEY, 3⟩, dirItem 257 1 "themt".toUTF8.data.toList)]

theorem sameEntries_hashAlike :
    (volume hashAlike).SameEntries crates ⟨FS_TREE_OBJECTID, ROOT_DIR⟩ where
  names := by decide +kernel
  indexed := by decide +kernel
  hashed := by decide +kernel

end Image

open Image in
/-- Both names are looked up as they are listed. -/
theorem Fs.lookup_agrees_hashAlike :
    nameHash Image.crates "themt".toUTF8.data.toList =
      nameHash Image.crates "ffmsaqg".toUTF8.data.toList ∧
    ∃ es, es.length = 2 ∧
      Yields (Cached (volumeLeaves hashAlike) (volume hashAlike))
        ((fs []).readdir ⟨FS_TREE_OBJECTID, ROOT_DIR⟩) (.ok es) ∧
      ∀ name, Yields (Cached (volumeLeaves hashAlike) (volume hashAlike))
        ((fs []).lookup ⟨FS_TREE_OBJECTID, ROOT_DIR⟩ name) (.ok (es.find? (·.name = name))) := by
  have hok : nameHash Image.crates "themt".toUTF8.data.toList =
        nameHash Image.crates "ffmsaqg".toUTF8.data.toList ∧
      Ascending hashAlike ∧ (leaf FS_TREE hashAlike).length < 2 ^ 32 ∧ (∀ y ∈ hashAlike, y.1.Fits) ∧
      ((volume hashAlike).readdir ⟨FS_TREE_OBJECTID, ROOT_DIR⟩).toOption.map List.length = some 2 := by
    decide +kernel
  obtain ⟨halike, hasc, hsize, hfit, hlen⟩ := hok
  have hst := stores_volume hasc hsize hfit
  obtain ⟨r, q, hr, hq, hok, -⟩ := Fs.lookup_agrees hst.storesRoots (fun _ => hst.storesTree .top)
    fun _ => sameEntries_hashAlike
  have hsame := (hr.value (cached_cachedLeaves _ _ ())).symm.trans
    ((hst.readdir fun _ => .top).value (cached_cachedLeaves _ _ ()))
  cases r with
  | error e =>
    rw [← hsame] at hlen
    exact nomatch hlen
  | ok es =>
    rw [← hsame] at hlen
    refine ⟨halike, es, Option.some.inj hlen, hr, fun name => ?_⟩
    rw [← hok es rfl name]
    exact hq name

end BtrfsPeek
