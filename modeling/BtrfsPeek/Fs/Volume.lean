import BtrfsPeek.Fs.Lookup
import BtrfsPeek.Fs.Tree

/-!
# What a filesystem holds

A `Volume` is the items of a filesystem's trees, without the blocks they are
in, and the functions on it say what the operations of `Fs` come to. Where the
trees that are linked from the top-level subvolume read as a volume says
(`Fs.Stores`), they come to that in every state: `Fs.Stores.tree` to
`Fs.Stores.readdir`.
-/

namespace BtrfsPeek

open Effect SearchTree

variable {β τ : Type}

/-- The items of one type of an object. -/
def itemsOf (items : List (Key × Bytes)) (objectid ty : Nat) : List (Key × Bytes) :=
  inRange ⟨objectid, ty, 0⟩ ⟨objectid, ty, U64_MAX⟩ items

/-- The item with a key. -/
def itemAt (items : List (Key × Bytes)) (key : Key) : Option Bytes :=
  (inRange key key items).head?.map Prod.snd

theorem mem_itemsOf {items : List (Key × Bytes)} {objectid ty : Nat} {x : Key × Bytes} :
    x ∈ itemsOf items objectid ty ↔
      x ∈ items ∧ x.1.objectid = objectid ∧ x.1.ty = ty ∧ x.1.offset ≤ U64_MAX := by
  obtain ⟨⟨obj, t, off⟩, d⟩ := x
  rw [itemsOf, inRange, List.mem_filter, decide_eq_true_eq]
  simp only [Key.le_def]
  constructor
  · rintro ⟨h, h₁, h₂⟩
    exact ⟨h, by omega, by omega, by omega⟩
  · rintro ⟨h, rfl, rfl, h₃⟩
    exact ⟨h, by omega, by omega⟩

/-- The items of the root tree, and those of each other tree. -/
structure Volume where
  roots : List (Key × Bytes)
  items : Nat → List (Key × Bytes)

namespace Volume

variable (v : Volume)

/-- The newest root item of a tree. -/
def rootItem (id : Nat) : Option Bytes :=
  (itemsOf v.roots id ROOT_ITEM_KEY).getLast?.map Prod.snd

def tree (id : Nat) : Except Error TreeRoot :=
  match v.rootItem id with
  | none => throw (.msg s!"subvolume tree {id} does not exist")
  | some item => do return { bytenr := ← u64At item 176, rootDirid := ← u64At item 168 }

def root : Except Error Loc := do
  let r ← v.tree FS_TREE_OBJECTID
  return { tree := FS_TREE_OBJECTID, ino := r.rootDirid }

/-- Where the trees are depends on the root tree only. -/
theorem tree_congr {v w : Volume} (h : v.roots = w.roots) (id : Nat) : v.tree id = w.tree id := by
  rw [tree, tree, rootItem, rootItem, h]

/-- A ROOT_REF ties `child` to the tree. -/
def Refers (tree child : Nat) : Prop := (itemAt v.roots ⟨tree, ROOT_REF_KEY, child⟩).isSome

instance (tree child : Nat) : Decidable (v.Refers tree child) :=
  inferInstanceAs (Decidable (_ = _))

/-- Tied to the top-level tree by a chain of ROOT_REFs. -/
inductive Linked : Nat → Prop
  | top : Linked FS_TREE_OBJECTID
  | nested {tree child : Nat} : Linked tree → v.Refers tree child → Linked child

def inode (loc : Loc) : Except Error Inode :=
  if Fs.isPlaceholder loc then pure Fs.placeholderInode
  else do
    let _ ← v.tree loc.tree
    match itemAt (v.items loc.tree) ⟨loc.ino, INODE_ITEM_KEY, 0⟩ with
    | none => throw (.msg s!"inode {loc.ino} missing from tree {loc.tree}")
    | some item => Inode.parse item

/-- An entry as it is listed. -/
def entry (dir : Loc) (e : DirEntry) : Except Error Entry :=
  if e.location.ty ≠ ROOT_ITEM_KEY then
    pure { name := e.name, loc := ⟨dir.tree, e.location.objectid⟩, ftype := e.ftype,
           subvol := false }
  else if v.Refers dir.tree e.location.objectid then do
    let r ← v.tree e.location.objectid
    pure { name := e.name, loc := ⟨e.location.objectid, r.rootDirid⟩, ftype := FT_DIR,
           subvol := true }
  else pure { name := e.name, loc := ⟨0, 0⟩, ftype := FT_DIR, subvol := true }

def isSnapshot (id : Nat) : Except Error Bool :=
  (itemsOf v.roots id ROOT_ITEM_KEY).foldlM (fun _ x => snapshotBit x.2) false

/-- The entries under a hash of their names. -/
def hashed (dir : Loc) (hash : Nat) : Except Error (List DirEntry) :=
  match itemAt (v.items dir.tree) ⟨dir.ino, DIR_ITEM_KEY, hash⟩ with
  | none => pure []
  | some item => parseDirEntries item

def lookup (X : Crates) (dir : Loc) (name : Bytes) : Except Error (Option Entry) :=
  if Fs.isPlaceholder dir then pure none
  else do
    let _ ← v.tree dir.tree
    let es ← v.hashed dir (nameHash X name)
    match es.find? (·.name = name) with
    | none => pure none
    | some e => do
      let e ← v.entry dir e
      pure (some e)

/-- The entries of a directory's index. -/
def index (dir : Loc) : Except Error (List DirEntry) :=
  gather (fun _ d => parseDirEntries d) (itemsOf (v.items dir.tree) dir.ino DIR_INDEX_KEY)

def readdir (dir : Loc) : Except Error (List Entry) :=
  if Fs.isPlaceholder dir then pure []
  else do
    let _ ← v.tree dir.tree
    let raw ← v.index dir
    let out ← raw.mapM (v.entry dir)
    pure (out.insertionSort byName)

def extents (loc : Loc) : Except Error (List Extent) := do
  let _ ← v.tree loc.tree
  gather (fun k d => (Extent.parse k.offset d).map fun e => [e])
    (itemsOf (v.items loc.tree) loc.ino EXTENT_DATA_KEY)

end Volume

/-- In every state satisfying `I` the root tree reads as `v` says, and the roots that
are cached are right. -/
structure Fs.StoresRoots (fs : Fs β) (I : FsState β → Prop) (v : Volume) : Prop where
  roots : ∃ blocks, fs.Reads I blocks ∧ ∃ l ≤ 8, IsTree blocks l fs.sb.root v.roots
  cached : ∀ s, I s → ∀ id r, s.roots.lookup id = some r → v.tree id = .ok r
  caches : ∀ s, I s → ∀ id r, v.tree id = .ok r → I { s with roots := (id, r) :: s.roots }

namespace Fs

variable {fs : Fs β} {I : FsState β → Prop}

/-- A walk that is followed by what goes on with what the visitor kept. -/
theorem walk_seq {α : Type} {root : Nat} {min max : Key} {visit : Visit τ} {t : τ}
    {items : List (Key × Bytes)} {f : τ → FsM β α} {q : Except Error τ} {g : τ → Except Error α}
    (hw : ∃ r, Yields I (fs.walk root min max visit t) r ∧
      r.map Prod.snd = (feed visit (inRange min max items) t).map Prod.snd)
    (hq : (feed visit (inRange min max items) t).map Prod.snd = q)
    (hf : ∀ t, q = .ok t → Yields I (f t) (g t)) :
    Yields I (fs.walk root min max visit t >>= fun p => f p.2) (q >>= g) := by
  obtain ⟨r, hr, hs⟩ := hw
  rw [hq] at hs
  subst hs
  cases r with
  | ok p => exact hr.bind (hf p.2 rfl)
  | error e => exact hr.bind_error

/-- The first item a walk of one key is handed. -/
theorem feed_first (key : Key) (items : List (Key × Bytes)) :
    (feed (fun _ d _ => .ok (false, some d)) (inRange key key items) (none : Option Bytes)).map
      Prod.snd = (.ok (itemAt items key) : Except Error _) := by
  rw [itemAt]
  cases inRange key key items <;> rfl

/-- The last item of a walk that does not stop. -/
theorem feed_last : ∀ (items : List (Key × Bytes)) (d : Option Bytes),
    feed (fun _ d _ => .ok (true, some d)) items d =
      (.ok (true, (items.getLast?.map Prod.snd).or d) : Except Error _)
  | [], d => rfl
  | x :: rest, d => by
    rw [feed]
    show feed _ rest (some x.2) = _
    rw [feed_last rest]
    cases rest with
    | nil => rfl
    | cons y rest => simp [List.getLast?_cons]

/-- What a walk gathers that does not stop. -/
theorem feed_gathered {A : Type} {f : Key → Bytes → Except Error (List A)} {visit : Visit (List A)}
    (h : ∀ k d as, visit k d as = (f k d).map fun a => (true, as ++ a)) (items : List (Key × Bytes)) :
    (feed visit items []).map Prod.snd = gather f items := by
  rw [feed_gather h]
  cases gather f items <;> rfl

end Fs

namespace Fs.StoresRoots

variable {fs : Fs β} {I : FsState β → Prop} {v : Volume}

theorem walk_roots (h : fs.StoresRoots I v) (min max : Key) (visit : Visit τ) (t : τ) :
    ∃ r, Yields I (fs.walk fs.sb.root min max visit t) r ∧
      r.map Prod.snd = (feed visit (inRange min max v.roots) t).map Prod.snd := by
  obtain ⟨blocks, hR, l, hl, hT⟩ := h.roots
  exact Fs.walk_yields hR hT hl min max visit t

theorem ascending_roots (h : fs.StoresRoots I v) : Ascending v.roots := by
  obtain ⟨blocks, -, l, -, hT⟩ := h.roots
  exact hT.ascending

theorem get_roots (h : fs.StoresRoots I v) (key : Key) :
    Yields I (fs.get fs.sb.root key) (.ok (itemAt v.roots key)) :=
  walk_seq (h.walk_roots ..) (feed_first ..) fun out _ => Yields.pure out

theorem rootItem (h : fs.StoresRoots I v) (id : Nat) : Yields I (fs.rootItem id) (.ok (v.rootItem id)) :=
  walk_seq (q := .ok (v.rootItem id)) (h.walk_roots ..)
    (by rw [feed_last]; simp [Except.map, Volume.rootItem, itemsOf]) fun item _ => Yields.pure item

theorem fetchTree (h : fs.StoresRoots I v) (id : Nat) : Yields I (fs.fetchTree id) (v.tree id) := by
  apply (h.rootItem id).bind
  rw [Volume.tree]
  cases v.rootItem id with
  | none => exact Yields.throw _
  | some item =>
    apply (Yields.lift _).seq
    intro bytenr _
    apply (Yields.lift _).seq
    intro rootDirid _
    exact Yields.pure _

/-- A tree is found once, and then it is in the cache. -/
theorem tree (h : fs.StoresRoots I v) (id : Nat) : Yields I (fs.tree id) (v.tree id) := by
  intro s hs
  rw [Fs.tree, bind_of_ok (get_run s)]
  cases hl : s.roots.lookup id with
  | some r =>
    rw [h.cached s hs id r hl]
    exact ⟨s, hs, rfl⟩
  | none =>
    obtain ⟨s₁, hs₁, hr⟩ := h.fetchTree id s hs
    cases ht : v.tree id with
    | error e =>
      rw [ht] at hr
      exact ⟨s₁, hs₁, bind_of_error hr⟩
    | ok r =>
      rw [ht] at hr
      exact ⟨_, h.caches s₁ hs₁ id r ht, bind_of_ok hr⟩

theorem isSnapshot (h : fs.StoresRoots I v) (id : Nat) :
    Yields I (fs.isSnapshot id) (v.isSnapshot id) := by
  rw [Volume.isSnapshot, ← bind_pure (List.foldlM _ _ _)]
  refine walk_seq (h.walk_roots ..) (feed_foldlM (fun k d t => ?_) _ _) fun snap _ => Yields.pure snap
  cases snapshotBit d <;> rfl

/-- An entry of a directory leads into its own tree, into a linked one, or to the
placeholder. -/
theorem entry (h : fs.StoresRoots I v) (dir : Loc) (e : DirEntry) :
    Yields I (fs.entry dir e) (v.entry dir e) := by
  rw [Fs.entry, Volume.entry]
  split_ifs with hty href
  · exact Yields.pure _
  · apply (h.get_roots _).bind
    obtain ⟨item, hi⟩ := Option.isSome_iff_exists.mp href
    rw [hi]
    exact (h.tree _).seq fun r _ => Yields.pure _
  · apply (h.get_roots _).bind
    rw [Option.not_isSome_iff_eq_none.mp href]
    exact Yields.pure _

end Fs.StoresRoots

/-- In every state satisfying `I` the root tree and tree `t` read as `v` says. -/
structure Fs.StoresTree (fs : Fs β) (I : FsState β → Prop) (v : Volume) (t : Nat) : Prop
    extends fs.StoresRoots I v where
  items : ∃ blocks, fs.Reads I blocks ∧
    ∀ r, v.tree t = .ok r → ∃ l ≤ 8, IsTree blocks l r.bytenr (v.items t)

namespace Fs.StoresTree

variable {fs : Fs β} {I : FsState β → Prop} {v : Volume}

theorem walk_items {t : Nat} (h : fs.StoresTree I v t) {r : TreeRoot} (hr : v.tree t = .ok r)
    (min max : Key) (visit : Visit τ) (x : τ) :
    ∃ q, Yields I (fs.walk r.bytenr min max visit x) q ∧
      q.map Prod.snd = (feed visit (inRange min max (v.items t)) x).map Prod.snd := by
  obtain ⟨blocks, hR, hT⟩ := h.items
  obtain ⟨l, hl, hT⟩ := hT r hr
  exact Fs.walk_yields hR hT hl min max visit x

theorem ascending_items {t : Nat} (h : fs.StoresTree I v t) {r : TreeRoot} (hr : v.tree t = .ok r) :
    Ascending (v.items t) := by
  obtain ⟨blocks, -, hT⟩ := h.items
  obtain ⟨l, -, hT⟩ := hT r hr
  exact hT.ascending

theorem get_items {t : Nat} (h : fs.StoresTree I v t) {r : TreeRoot} (hr : v.tree t = .ok r)
    (key : Key) : Yields I (fs.get r.bytenr key) (.ok (itemAt (v.items t) key)) :=
  walk_seq (h.walk_items hr ..) (feed_first ..) fun out _ => Yields.pure out

theorem inode (h : fs.StoresRoots I v) {loc : Loc}
    (hl : ¬ isPlaceholder loc → fs.StoresTree I v loc.tree) : Yields I (fs.inode loc) (v.inode loc) := by
  rw [Fs.inode, Volume.inode]
  split_ifs with hp
  · exact Yields.pure _
  · apply (h.tree loc.tree).seq
    intro r hr
    apply ((hl hp).get_items hr _).bind
    cases itemAt (v.items loc.tree) ⟨loc.ino, INODE_ITEM_KEY, 0⟩ with
    | none => exact Yields.throw _
    | some item => exact Yields.lift _

theorem extents {loc : Loc} (h : fs.StoresTree I v loc.tree) :
    Yields I (fs.extents loc) (v.extents loc) := by
  apply (h.tree loc.tree).seq
  intro r hr
  rw [← bind_pure (gather _ _)]
  refine walk_seq (h.walk_items hr ..) (feed_gathered (fun k d as => ?_) _) fun out _ => Yields.pure out
  cases Extent.parse k.offset d <;> rfl

theorem lookup (h : fs.StoresRoots I v) {dir : Loc}
    (hl : ¬ isPlaceholder dir → fs.StoresTree I v dir.tree) (name : Bytes) :
    Yields I (fs.lookup dir name) (v.lookup fs.crates dir name) := by
  rw [Fs.lookup, Volume.lookup]
  split_ifs with hp
  · exact Yields.pure _
  · apply (h.tree dir.tree).seq
    intro r hr
    apply ((hl hp).get_items hr _).bind
    rw [Volume.hashed]
    cases itemAt (v.items dir.tree) ⟨dir.ino, DIR_ITEM_KEY, nameHash fs.crates name⟩ with
    | none => exact Yields.pure _
    | some item =>
      apply (Yields.lift _).seq
      intro es _
      cases es.find? (·.name = name) with
      | none => exact Yields.pure _
      | some e => exact (h.entry dir e).seq fun e _ => Yields.pure _

theorem dirEntries {dir : Loc} (h : fs.StoresTree I v dir.tree) :
    Yields I (fs.dirEntries dir) (v.tree dir.tree >>= fun _ => v.index dir) := by
  apply (h.tree dir.tree).seq
  intro r hr
  rw [← bind_pure (v.index dir)]
  refine walk_seq (h.walk_items hr ..) (feed_gathered (fun k d as => ?_) _) fun out _ => Yields.pure out
  cases parseDirEntries d <;> rfl

theorem readdir (h : fs.StoresRoots I v) {dir : Loc}
    (hl : ¬ isPlaceholder dir → fs.StoresTree I v dir.tree) :
    Yields I (fs.readdir dir) (v.readdir dir) := by
  rw [Fs.readdir, Volume.readdir]
  split_ifs with hp
  · exact Yields.pure _
  · rw [← bind_assoc (v.tree dir.tree) fun _ => v.index dir]
    apply ((hl hp).dirEntries).seq
    intro raw _
    exact (Yields.mapEach fun e _ => h.entry dir e).seq fun out _ => Yields.pure _

end Fs.StoresTree

/-- In every state satisfying `I`, the root tree and the trees that are linked read
as `v` says, and the roots that are cached are right. -/
structure Fs.Stores (fs : Fs β) (I : FsState β → Prop) (v : Volume) : Prop where
  trees : ∃ blocks, fs.Reads I blocks ∧ (∃ l ≤ 8, IsTree blocks l fs.sb.root v.roots) ∧
    ∀ id r, v.Linked id → v.tree id = .ok r → ∃ l ≤ 8, IsTree blocks l r.bytenr (v.items id)
  cached : ∀ s, I s → ∀ id r, s.roots.lookup id = some r → v.tree id = .ok r
  caches : ∀ s, I s → ∀ id r, v.tree id = .ok r → I { s with roots := (id, r) :: s.roots }

namespace Fs.Stores

variable {fs : Fs β} {I : FsState β → Prop} {v : Volume}

theorem storesRoots (h : fs.Stores I v) : fs.StoresRoots I v where
  roots := by
    obtain ⟨blocks, hR, hT, -⟩ := h.trees
    exact ⟨blocks, hR, hT⟩
  cached := h.cached
  caches := h.caches

theorem storesTree (h : fs.Stores I v) {t : Nat} (ht : v.Linked t) : fs.StoresTree I v t where
  toStoresRoots := h.storesRoots
  items := by
    obtain ⟨blocks, hR, -, hT⟩ := h.trees
    exact ⟨blocks, hR, fun r hr => hT t r ht hr⟩

theorem walk_roots (h : fs.Stores I v) (min max : Key) (visit : Visit τ) (t : τ) :
    ∃ r, Yields I (fs.walk fs.sb.root min max visit t) r ∧
      r.map Prod.snd = (feed visit (inRange min max v.roots) t).map Prod.snd :=
  h.storesRoots.walk_roots min max visit t

theorem tree (h : fs.Stores I v) (id : Nat) : Yields I (fs.tree id) (v.tree id) :=
  h.storesRoots.tree id

theorem isSnapshot (h : fs.Stores I v) (id : Nat) :
    Yields I (fs.isSnapshot id) (v.isSnapshot id) := h.storesRoots.isSnapshot id

theorem root (h : fs.Stores I v) : Yields I fs.root v.root :=
  (h.tree FS_TREE_OBJECTID).seq fun _ _ => Yields.pure _

theorem walk_items (h : fs.Stores I v) {id : Nat} {r : TreeRoot} (hid : v.Linked id)
    (hr : v.tree id = .ok r) (min max : Key) (visit : Visit τ) (t : τ) :
    ∃ q, Yields I (fs.walk r.bytenr min max visit t) q ∧
      q.map Prod.snd = (feed visit (inRange min max (v.items id)) t).map Prod.snd :=
  (h.storesTree hid).walk_items hr min max visit t

theorem inode (h : fs.Stores I v) {loc : Loc} (hl : ¬ isPlaceholder loc → v.Linked loc.tree) :
    Yields I (fs.inode loc) (v.inode loc) :=
  StoresTree.inode h.storesRoots fun hp => h.storesTree (hl hp)

theorem extents (h : fs.Stores I v) {loc : Loc} (hl : v.Linked loc.tree) :
    Yields I (fs.extents loc) (v.extents loc) := (h.storesTree hl).extents

theorem lookup (h : fs.Stores I v) {dir : Loc} (hl : ¬ isPlaceholder dir → v.Linked dir.tree)
    (name : Bytes) : Yields I (fs.lookup dir name) (v.lookup fs.crates dir name) :=
  StoresTree.lookup h.storesRoots (fun hp => h.storesTree (hl hp)) name

theorem readdir (h : fs.Stores I v) {dir : Loc} (hl : ¬ isPlaceholder dir → v.Linked dir.tree) :
    Yields I (fs.readdir dir) (v.readdir dir) :=
  StoresTree.readdir h.storesRoots fun hp => h.storesTree (hl hp)

end Fs.Stores

/-! ## Volumes in leaves -/

section leaves

/-- The leaves of these addresses and items. -/
def leaves (l : List (Nat × List (Key × Bytes))) (p : Nat) : Option Node :=
  (l.lookup p).map fun items => ⟨Image.leaf p items⟩

/-- They are in the cache, and so are no roots but those of the volume. -/
def Cached (l : List (Nat × List (Key × Bytes))) (v : Volume) (s : FsState β) : Prop :=
  (∀ p n, leaves l p = some n → s.nodes.lookup p = some n) ∧
    ∀ id r, s.roots.lookup id = some r → v.tree id = .ok r

/-- The state in which nothing else is cached. -/
def cachedLeaves (l : List (Nat × List (Key × Bytes))) (dev : β) : FsState β :=
  { FsState.empty dev with nodes := l.map fun x => (x.1, ⟨Image.leaf x.1 x.2⟩) }

theorem lookup_leaves (l : List (Nat × List (Key × Bytes))) (p : Nat) :
    (l.map fun x => (x.1, (⟨Image.leaf x.1 x.2⟩ : Node))).lookup p = leaves l p := by
  rw [leaves]
  induction l with
  | nil => rfl
  | cons x l ih =>
    rw [List.map_cons, List.lookup_cons, List.lookup_cons]
    by_cases hp : p = x.1
    · subst hp
      simp
    · have hb : (p == x.1) = false := by simpa using hp
      simp only [hb]
      exact ih

theorem cached_cachedLeaves (l : List (Nat × List (Key × Bytes))) (v : Volume) (dev : β) :
    Cached l v (cachedLeaves l dev) := by
  refine ⟨fun p n hn => ?_, fun id r hr => by cases hr⟩
  rw [← hn]
  exact lookup_leaves l p

theorem isTree_leaves {l : List (Nat × List (Key × Bytes))} {p : Nat} {items : List (Key × Bytes)}
    (hp : l.lookup p = some items) (hasc : Ascending items)
    (hlen : (Image.leaf p items).length < 2 ^ 32) (hfit : ∀ x ∈ items, x.1.Fits) :
    IsTree (leaves l) 0 p items := by
  have hleaf : LeafAt (leaves l) p items := by
    refine ⟨⟨Image.leaf p items⟩, ?_, Image.items_leaf (.whole _) hlen hfit⟩
    rw [leaves, hp]
    rfl
  have hwithin : ∀ x ∈ items, Within none none x.1 := fun x _ => by simp [Within]
  exact .leaf hleaf hasc hwithin

/-- A leaf for each tree of a volume stores it. -/
theorem stores_leaves {fs : Fs β} {v : Volume} {l : List (Nat × List (Key × Bytes))} {S : List Nat}
    (hroot : l.lookup fs.sb.root = some v.roots) (hS : ∀ t, v.Linked t → t ∈ S)
    (htrees : ∀ t ∈ S, Returns (v.tree t) fun r => l.lookup r.bytenr = some (v.items t))
    (hasc : ∀ x ∈ l, Ascending x.2) (hlen : ∀ x ∈ l, (Image.leaf x.1 x.2).length < 2 ^ 32)
    (hfit : ∀ x ∈ l, ∀ y ∈ x.2, y.1.Fits) : fs.Stores (Cached l v) v := by
  have htree (p : Nat) (items : List (Key × Bytes)) (hp : l.lookup p = some items) :
      IsTree (leaves l) 0 p items := by
    have hmem : (p, items) ∈ l := by
      obtain ⟨l₁, l₂, rfl, -⟩ := List.lookup_eq_some_iff.mp hp
      simp
    exact isTree_leaves hp (hasc (p, items) hmem) (hlen (p, items) hmem) (hfit (p, items) hmem)
  have hreads : fs.Reads (Cached l v) (leaves l) := fs.reads_of_nodes fun s hs => hs.1
  constructor
  · refine ⟨leaves l, hreads, ⟨0, by decide, htree _ _ hroot⟩, ?_⟩
    intro t r ht hr
    have := htrees t (hS t ht)
    rw [hr] at this
    exact ⟨0, by decide, htree _ _ this⟩
  · exact fun s hs => hs.2
  · intro s hs id r hr
    refine ⟨hs.1, fun id' r' h => ?_⟩
    rw [List.lookup_cons] at h
    by_cases hid : id' = id
    · subst hid
      simp only [beq_self_eq_true, Option.some.injEq] at h
      rw [← h, hr]
    · have hb : (id' == id) = false := by simpa using hid
      rw [hb] at h
      exact hs.2 id' r' h

end leaves

end BtrfsPeek
