import BtrfsPeek.Fs.Climb
import BtrfsPeek.Fs.Reach
import BtrfsPeek.Lib.Passes

/-!
# Listing the subvolumes

`Fs.subvols` places subvolumes in passes: one is placed when the subvolume that
holds it is. On a volume whose references match (`Volume.Backed`) each pass is one
of `Passes.pass` (`Fs.Stores.placeAll`), the paths are those along the back
references (`Volume.PathTo`), and they resolve (`Volume.PathTo.reaches`). In the end those are
placed that have one, whatever their order (`Fs.subvols_complete`).
-/

namespace BtrfsPeek

open Effect SearchTree Passes

variable {β : Type}

/-! ## Root items and back references -/

/-- What is kept of a root item. -/
def rootInfoOf (x : Key × Bytes) : Except Error RootInfo := do
  let snapshot ← snapshotBit x.2
  let generation ← u64At x.2 160
  let flags ← u64At x.2 208
  return { id := x.1.objectid, generation, readonly := flags % 2 ≠ 0, snapshot }

/-- What is kept of a back reference. -/
def backrefOf (x : Key × Bytes) : Except Error (Nat × Backref) := do
  let len ← u16At x.2 16
  let name := Utf8.fromUtf8Lossy (← bytes x.2 18 len)
  let dirid ← u64At x.2 0
  return (x.1.objectid, { parent := x.1.offset, dirid, name })

theorem visit_rootItem {k : Key} {d : Bytes} {r : RootItems} (h : k.ty = ROOT_ITEM_KEY) :
    RootItems.visit k d r =
      (rootInfoOf (k, d)).map fun i => (true, { r with items := r.items ++ [i] }) := by
  unfold RootItems.visit rootInfoOf
  rw [if_pos h]
  cases snapshotBit d with
  | error e => rfl
  | ok snapshot =>
    cases u64At d 160 with
    | error e => rfl
    | ok generation => cases u64At d 208 <;> rfl

theorem visit_backref {k : Key} {d : Bytes} {r : RootItems} (h : k.ty = ROOT_BACKREF_KEY) :
    RootItems.visit k d r =
      (backrefOf (k, d)).map fun b => (true, { r with backrefs := b :: r.backrefs }) := by
  have hne : k.ty ≠ ROOT_ITEM_KEY := by rw [h]; decide
  unfold RootItems.visit backrefOf
  rw [if_neg hne, if_pos h]
  cases u16At d 16 with
  | error e => rfl
  | ok len =>
    simp only [bind, Except.bind]
    cases bytes d 18 len with
    | error e => rfl
    | ok name => cases u64At d 0 <;> rfl

theorem visit_other {k : Key} {d : Bytes} {r : RootItems} (h : k.ty ≠ ROOT_ITEM_KEY)
    (h' : k.ty ≠ ROOT_BACKREF_KEY) : RootItems.visit k d r = .ok (true, r) := by
  unfold RootItems.visit
  rw [if_neg h, if_neg h']

/-- What the items of a list come to, where each can be read. -/
theorem foldlM_visit : ∀ {l : List (Key × Bytes)} (r : RootItems),
    (∀ x ∈ l, x.1.ty = ROOT_ITEM_KEY → ∃ i, rootInfoOf x = .ok i) →
    (∀ x ∈ l, x.1.ty = ROOT_BACKREF_KEY → ∃ b, backrefOf x = .ok b) →
    ∃ infos refs, (l.filter fun x => x.1.ty = ROOT_ITEM_KEY).mapM rootInfoOf = .ok infos ∧
      (l.filter fun x => x.1.ty = ROOT_BACKREF_KEY).mapM backrefOf = .ok refs ∧
      l.foldlM (fun r x => (RootItems.visit x.1 x.2 r).map Prod.snd) r =
        .ok ⟨r.items ++ infos, refs.reverse ++ r.backrefs⟩
  | [], r, _, _ => ⟨[], [], rfl, rfl, by simp; rfl⟩
  | x :: l, r, hi, hb => by
    have hi' : ∀ y ∈ l, y.1.ty = ROOT_ITEM_KEY → ∃ i, rootInfoOf y = .ok i :=
      fun y hy => hi y (List.mem_cons_of_mem _ hy)
    have hb' : ∀ y ∈ l, y.1.ty = ROOT_BACKREF_KEY → ∃ b, backrefOf y = .ok b :=
      fun y hy => hb y (List.mem_cons_of_mem _ hy)
    rw [List.foldlM_cons]
    by_cases h₁ : x.1.ty = ROOT_ITEM_KEY
    · have h₂ : x.1.ty ≠ ROOT_BACKREF_KEY := by rw [h₁]; decide
      obtain ⟨i, hx⟩ := hi x List.mem_cons_self h₁
      obtain ⟨infos, refs, hinfos, hrefs, hf⟩ :=
        foldlM_visit { r with items := r.items ++ [i] } hi' hb'
      refine ⟨i :: infos, refs, ?_, ?_, ?_⟩
      · rw [List.filter_cons_of_pos (by simpa using h₁), List.mapM_cons, hx, hinfos]
        rfl
      · rw [List.filter_cons_of_neg (by simpa using h₂), hrefs]
      · rw [visit_rootItem h₁, hx]
        show l.foldlM _ { r with items := r.items ++ [i] } = _
        rw [hf, List.append_assoc]
        rfl
    · by_cases h₂ : x.1.ty = ROOT_BACKREF_KEY
      · obtain ⟨b, hx⟩ := hb x List.mem_cons_self h₂
        obtain ⟨infos, refs, hinfos, hrefs, hf⟩ :=
          foldlM_visit { r with backrefs := b :: r.backrefs } hi' hb'
        refine ⟨infos, b :: refs, ?_, ?_, ?_⟩
        · rw [List.filter_cons_of_neg (by simpa using h₁), hinfos]
        · rw [List.filter_cons_of_pos (by simpa using h₂), List.mapM_cons, hx, hrefs]
          rfl
        · rw [visit_backref h₂, hx]
          show l.foldlM _ { r with backrefs := b :: r.backrefs } = _
          rw [hf, List.reverse_cons, List.append_assoc]
          rfl
      · obtain ⟨infos, refs, hinfos, hrefs, hf⟩ := foldlM_visit r hi' hb'
        refine ⟨infos, refs, ?_, ?_, ?_⟩
        · rw [List.filter_cons_of_neg (by simpa using h₁), hinfos]
        · rw [List.filter_cons_of_neg (by simpa using h₂), hrefs]
        · rw [visit_other h₁ h₂]
          exact hf

/-- Items of different ids are all kept. -/
theorem dedupById_of_nodup : ∀ {l : List RootInfo} {last : Option Nat},
    (∀ x ∈ l, last ≠ some x.id) → (l.map RootInfo.id).Nodup → dedupById last l = l
  | [], _, _, _ => rfl
  | x :: l, last, hlast, hn => by
    rw [List.map_cons, List.nodup_cons] at hn
    rw [dedupById, if_neg (hlast x List.mem_cons_self), dedupById_of_nodup ?_ hn.2]
    intro y hy he
    exact hn.1 (List.mem_map.mpr ⟨y, hy, (Option.some.inj he).symm⟩)

/-! ## Paths as texts -/

theorem joinPath_cons (p q : Text) (l : List Text) :
    joinPath (p :: q :: l) = p ++ '/' :: joinPath (q :: l) := by
  simp [joinPath, List.intercalate]

theorem joinPath_append {a b : List Text} (ha : a ≠ []) (hb : b ≠ []) :
    joinPath (a ++ b) = joinPath a ++ '/' :: joinPath b := by
  induction a with
  | nil => exact absurd rfl ha
  | cons p a ih =>
    cases a with
    | nil =>
      cases b with
      | nil => exact absurd rfl hb
      | cons q b => simp [joinPath, List.intercalate]
    | cons q a =>
      rw [List.cons_append, List.cons_append, joinPath_cons, joinPath_cons, ← List.cons_append,
        ih (List.cons_ne_nil q a), List.append_assoc, List.cons_append]

theorem joinPath_ne_nil {l : List Text} (hl : l ≠ []) (h : ∀ n ∈ l, PlainName n) :
    joinPath l ≠ [] := by
  cases l with
  | nil => exact absurd rfl hl
  | cons p l =>
    have hp : p ≠ [] := (h p List.mem_cons_self).1.1
    cases l with
    | nil => simpa [joinPath, List.intercalate] using hp
    | cons q l =>
      rw [joinPath_cons]
      simp

/-- A path is split into the components it was made of. -/
theorem pathParts_joinPath : ∀ {l : List Text}, (∀ n ∈ l, PlainName n) →
    Fs.pathParts (joinPath l) = l
  | [], _ => Fs.pathParts_nil
  | [p], h => by
    have hp := h p List.mem_cons_self
    rw [show joinPath [p] = p by simp [joinPath, List.intercalate]]
    exact Fs.pathParts_name hp.1 hp.2
  | p :: q :: l, h => by
    have hp := h p List.mem_cons_self
    rw [joinPath_cons, Fs.pathParts_append, Fs.pathParts_name hp.1 hp.2,
      pathParts_joinPath fun n hn => h n (List.mem_cons_of_mem _ hn)]
    rfl

/-- The parts of a path that are not empty, joined. -/
theorem joinPath_filter {ps ds : List Text} {n : Text} (hps : ∀ m ∈ ps, PlainName m)
    (hds : ∀ m ∈ ds, PlainName m) (hn : PlainName n) :
    joinPath ([joinPath ps, joinPath ds, n].filter (· ≠ [])) = joinPath (ps ++ ds ++ [n]) := by
  have hn : n ≠ [] := hn.1.1
  have hone (t : Text) : joinPath [t] = t := by simp [joinPath, List.intercalate]
  by_cases hp : ps = []
  · subst hp
    by_cases hd : ds = []
    · subst hd
      simp [joinPath, List.intercalate, hn]
    · have hd' := joinPath_ne_nil hd hds
      rw [List.nil_append, joinPath_append hd (by simp), hone n]
      simp [show joinPath ([] : List Text) = [] from rfl, hd', hn, joinPath_cons, hone]
  · have hp' := joinPath_ne_nil hp hps
    by_cases hd : ds = []
    · subst hd
      rw [List.append_nil, joinPath_append hp (by simp), hone n]
      simp [show joinPath ([] : List Text) = [] from rfl, hp', hn, joinPath_cons, hone]
    · have hd' := joinPath_ne_nil hd hds
      rw [List.append_assoc, joinPath_append hp (by simp), joinPath_append hd (by simp), hone n]
      simp [hp', hd', hn, joinPath_cons, hone]

/-! ## Where the subvolumes are -/

namespace Volume

/-- The back reference of a subvolume; the last is in force. -/
def backref (v : Volume) (id : Nat) : Option (Key × Bytes) :=
  (v.rootsOf ROOT_BACKREF_KEY).reverse.find? fun x => x.1.objectid = id

/-- Each subvolume has one root item, and a back reference matches a ROOT_REF and the
entry it names. -/
structure Backed (v : Volume) : Prop where
  infos : ∀ x ∈ v.rootsOf ROOT_ITEM_KEY, Returns (rootInfoOf x) fun _ => True
  once : ((v.rootsOf ROOT_ITEM_KEY).map fun x => x.1.objectid).Nodup
  backrefs : ∀ x ∈ v.rootsOf ROOT_BACKREF_KEY, Returns (backrefOf x) fun r =>
    v.Refers x.1.offset x.1.objectid ∧
    (∃ y ∈ v.rootsOf ROOT_ITEM_KEY, y.1.objectid = x.1.objectid) ∧
    Returns (v.index ⟨x.1.offset, r.2.dirid⟩) fun es => ∃ d ∈ es,
      d.name = Utf8.toUtf8 r.2.name ∧ d.location.ty = ROOT_ITEM_KEY ∧
        d.location.objectid = x.1.objectid
  refs : ∀ t, v.Linked t → v.RefsOk t

/-- The path, inside the parent's tree, of the directory that holds a subvolume. -/
def dirPath (v : Volume) (b : Backref) : Text :=
  match v.pathInTree b.parent b.dirid with
  | .ok t => t
  | .error _ => []

/-- The path of a subvolume, from its parent's. -/
def childPath (v : Volume) (q : Text) (b : Backref) : Text :=
  joinPath ([q, v.dirPath b, b.name].filter (· ≠ []))

/-- A chain of back references from a subvolume to the top level. -/
inductive Climbs (v : Volume) : Nat → Prop
  | top {id : Nat} {x : Key × Bytes} : v.backref id = some x → x.1.offset = FS_TREE_OBJECTID →
      Climbs v id
  | next {id : Nat} {x : Key × Bytes} : v.backref id = some x → Climbs v x.1.offset → Climbs v id

/-- The path of a tree, along the back references. -/
inductive PathTo (v : Volume) (refs : List (Nat × Backref)) : Nat → Text → Prop
  | top : PathTo v refs FS_TREE_OBJECTID []
  | child {id : Nat} {b : Backref} {q : Text} : refs.lookup id = some b → PathTo v refs b.parent q →
      PathTo v refs id (v.childPath q b)

/-- The list of the back references as it is looked up in. -/
structure Lists (v : Volume) (refs : List (Nat × Backref)) : Prop where
  of_lookup : ∀ {id b}, refs.lookup id = some b →
    ∃ x, v.backref id = some x ∧ backrefOf x = .ok (id, b)
  lookup : ∀ {id x}, v.backref id = some x → ∃ b, refs.lookup id = some b ∧
    backrefOf x = .ok (id, b)

end Volume

theorem backrefOf_ok {x : Key × Bytes} {id : Nat} {b : Backref} (h : backrefOf x = .ok (id, b)) :
    id = x.1.objectid ∧ b.parent = x.1.offset := by
  obtain ⟨_, -, h⟩ := except_bind_ok.mp h
  obtain ⟨_, -, h⟩ := except_bind_ok.mp h
  obtain ⟨_, -, h⟩ := except_bind_ok.mp h
  cases h
  exact ⟨rfl, rfl⟩

/-- Looking up an id in what is read of the items finds the first of them. -/
theorem lookup_backrefs {l : List (Key × Bytes)} {bs : List (Nat × Backref)} (id : Nat)
    (h : List.Forall₂ (fun x p => backrefOf x = .ok p) l bs) :
    (∀ b, bs.lookup id = some b →
      ∃ x, l.find? (fun x => x.1.objectid = id) = some x ∧ backrefOf x = .ok (id, b)) ∧
    ∀ x, l.find? (fun x => x.1.objectid = id) = some x →
      ∃ b, bs.lookup id = some b ∧ backrefOf x = .ok (id, b) := by
  induction h with
  | nil =>
    constructor
    · intro b hb
      cases hb
    · intro x hx
      cases hx
  | @cons x p l bs hx _ ih =>
    obtain ⟨k, b⟩ := p
    obtain ⟨rfl, -⟩ := backrefOf_ok hx
    rw [List.lookup_cons, List.find?_cons]
    by_cases hid : x.1.objectid = id
    · subst hid
      simp only [beq_self_eq_true, decide_true, Option.some.injEq]
      refine ⟨fun c hc => ⟨x, rfl, hc ▸ hx⟩, fun y hy => ⟨b, rfl, hy ▸ hx⟩⟩
    · have hne : (id == x.1.objectid) = false := by simpa using fun he => hid he.symm
      rw [hne, decide_eq_false hid]
      exact ih

namespace Volume

variable {v : Volume} {refs : List (Nat × Backref)}

theorem mem_rootsOf {ty : Nat} {x : Key × Bytes} (h : x ∈ v.rootsOf ty) :
    x ∈ v.roots ∧ x.1.ty = ty ∧ FIRST_FREE_OBJECTID ≤ x.1.objectid := by
  rw [rootsOf, List.mem_filter, inRange, List.mem_filter] at h
  simp only [decide_eq_true_eq, Key.le_def] at h
  exact ⟨h.1.1, h.2, by omega⟩

theorem mem_of_backref {id : Nat} {x : Key × Bytes} (h : v.backref id = some x) :
    x ∈ v.rootsOf ROOT_BACKREF_KEY ∧ x.1.objectid = id := by
  have hid := List.find?_some h
  exact ⟨List.mem_reverse.mp (List.mem_of_find?_eq_some h), of_decide_eq_true hid⟩

/-- What is read of the back references is such a list. -/
theorem lists {bs : List (Nat × Backref)}
    (hbs : (v.rootsOf ROOT_BACKREF_KEY).mapM backrefOf = .ok bs) : v.Lists bs.reverse := by
  have hall := List.forall₂_reverse_iff.mpr (mapM_ok_iff.mp hbs)
  constructor
  · exact fun hl => (lookup_backrefs _ hall).1 _ hl
  · exact fun hx => (lookup_backrefs _ hall).2 _ hx

/-- The top level has no back reference. -/
theorem Lists.top (h : v.Lists refs) : refs.lookup FS_TREE_OBJECTID = none := by
  cases hl : refs.lookup FS_TREE_OBJECTID with
  | none => rfl
  | some b =>
    obtain ⟨x, hx, -⟩ := h.of_lookup hl
    obtain ⟨hx, hid⟩ := mem_of_backref hx
    have hle := (mem_rootsOf hx).2.2
    rw [hid] at hle
    exact absurd hle (by decide)

/-- A tree has one path. -/
theorem PathTo.unique (h : v.Lists refs) {id : Nat} {q q' : Text} (hq : v.PathTo refs id q)
    (hq' : v.PathTo refs id q') : q = q' := by
  induction hq generalizing q' with
  | top =>
    cases hq' with
    | top => rfl
    | child hl _ => rw [h.top] at hl; cases hl
  | child hl _ ih =>
    cases hq' with
    | top => rw [h.top] at hl; cases hl
    | child hl' hp =>
      rw [hl] at hl'
      cases hl'
      rw [ih hp]

/-- A tree that has a path is linked. -/
theorem PathTo.linked (hb : v.Backed) (h : v.Lists refs) {id : Nat} {q : Text}
    (hq : v.PathTo refs id q) : v.Linked id := by
  induction hq with
  | top => exact .top
  | child hl _ ih =>
    obtain ⟨x, hx, hxb⟩ := h.of_lookup hl
    obtain ⟨rfl, hp⟩ := backrefOf_ok hxb
    have href := hb.backrefs x (mem_of_backref hx).1
    rw [hxb] at href
    rw [hp] at ih
    exact .nested ih href.1

/-- Those that have a path are those whose back references reach the top level. -/
theorem climbs_iff (h : v.Lists refs) {id : Nat} :
    v.Climbs id ↔ id ≠ FS_TREE_OBJECTID ∧ ∃ q, v.PathTo refs id q := by
  have hne {id : Nat} {b : Backref} (hl : refs.lookup id = some b) : id ≠ FS_TREE_OBJECTID := by
    intro he
    rw [he, h.top] at hl
    cases hl
  constructor
  · intro hc
    induction hc with
    | @top id x hx htop =>
      obtain ⟨b, hl, hxb⟩ := h.lookup hx
      have hp := (backrefOf_ok hxb).2
      have hq : v.PathTo refs b.parent [] := by
        rw [hp, htop]
        exact .top
      exact ⟨hne hl, _, .child hl hq⟩
    | @next id x hx _ ih =>
      obtain ⟨-, q, hq⟩ := ih
      obtain ⟨b, hl, hxb⟩ := h.lookup hx
      rw [← (backrefOf_ok hxb).2] at hq
      exact ⟨hne hl, _, .child hl hq⟩
  · rintro ⟨hid, q, hq⟩
    induction hq with
    | top => exact absurd rfl hid
    | @child id b q hl hq ih =>
      obtain ⟨x, hx, hxb⟩ := h.of_lookup hl
      obtain ⟨-, hp⟩ := backrefOf_ok hxb
      by_cases htop : b.parent = FS_TREE_OBJECTID
      · exact .top hx (hp ▸ htop)
      · exact .next hx (hp ▸ ih htop)

end Volume

section stored

variable {fs : Fs β} {I : FsState β → Prop} {v : Volume} {refs : List (Nat × Backref)}

/-- The directory that holds a subvolume is climbed from, and reached again. -/
theorem Fs.Stores.reaches_dir (h : fs.Stores I v) (hw : v.WellFormed fs.crates) (hb : v.Backed)
    {t : Nat} (ht : v.Linked t) {r : TreeRoot} (hr : v.tree t = .ok r) {ino : Nat}
    {raw : List DirEntry} (hraw : v.index ⟨t, ino⟩ = .ok raw) {d : DirEntry} (hd : d ∈ raw) :
    ∃ ds, v.pathInTree t ino = .ok (joinPath ds) ∧ (∀ n ∈ ds, PlainName n) ∧
      fs.Reaches I ⟨t, r.rootDirid⟩ ds ⟨t, ino⟩ := by
  obtain ⟨x, hx, -⟩ := (mem_gather hraw).mp hd
  obtain ⟨hx, hobj, hty, -⟩ := mem_itemsOf.mp hx
  have hdepth := (hb.refs t ht).depth
  rw [hr] at hdepth
  obtain ⟨parts, hparts, -⟩ := returns_iff.mp (hdepth x hx hty)
  rw [show x.1.objectid = ino from hobj] at hparts
  obtain ⟨ds, hds, hplain, hreach⟩ := h.reaches_climb hw ht (hb.refs t ht) hr hparts
  rw [List.append_nil] at hds
  subst hds
  have hmore := Fs.climb_succ hparts
  refine ⟨parts, ?_, hplain, hreach⟩
  rw [Volume.pathInTree, hr]
  show (v.climb t r (Fs.MAX_PARTS - 1 + 1) ino [] >>= fun parts => pure (joinPath parts)) = _
  rw [hmore]
  rfl

/-- The path of a tree leads from the top level to its root. -/
theorem Volume.PathTo.reaches (h : fs.Stores I v) (hw : v.WellFormed fs.crates) (hb : v.Backed)
    (hl : v.Lists refs) {root : TreeRoot} (hroot : v.tree FS_TREE_OBJECTID = .ok root) {id : Nat}
    {q : Text} (hq : v.PathTo refs id q) : ∃ ps r, q = joinPath ps ∧ (∀ n ∈ ps, PlainName n) ∧
      v.tree id = .ok r ∧
      fs.Reaches I ⟨FS_TREE_OBJECTID, root.rootDirid⟩ ps ⟨id, r.rootDirid⟩ := by
  induction hq with
  | top => exact ⟨[], root, rfl, fun _ hn => absurd hn List.not_mem_nil, hroot, .refl _⟩
  | @child id b q hlook hq ih =>
    obtain ⟨ps, r, rfl, hps, hr, hreach⟩ := ih
    have ht := hq.linked hb hl
    obtain ⟨x, hx, hxb⟩ := hl.of_lookup hlook
    obtain ⟨rfl, hp⟩ := backrefOf_ok hxb
    have hback := hb.backrefs x (Volume.mem_of_backref hx).1
    rw [hxb] at hback
    obtain ⟨href, -, hentry⟩ := hback
    rw [← hp] at href hentry
    obtain ⟨raw, hraw, d, hd, hname, hty, hobj⟩ := returns_iff.mp hentry
    obtain ⟨ds, hpath, hds, hdown⟩ := h.reaches_dir hw hb ht hr hraw hd
    obtain ⟨n, hn, hplain⟩ := Fs.plain_of_index (hb.refs _ ht) hraw hd
    obtain rfl : n = b.name := Utf8.toUtf8_injective (hn.symm.trans hname)
    obtain ⟨r', hr', -⟩ := returns_iff.mp (hw.tree _ (.nested ht href)).root
    -- The entry that the reference names leads to the root of the subvolume.
    have he : v.entry ⟨b.parent, b.dirid⟩ d =
        .ok ⟨d.name, ⟨x.1.objectid, r'.rootDirid⟩, FT_DIR, true⟩ := by
      rw [Volume.entry, if_neg (by rw [hty]; simp), hobj, if_pos href, hr']
      rfl
    refine ⟨ps ++ ds ++ [b.name], r', ?_, ?_, hr',
      (hreach.trans hdown).trans (h.reaches_entry hw ht hraw hd he hn hplain)⟩
    · rw [Volume.childPath, Volume.dirPath, hpath]
      exact joinPath_filter hps hds hplain
    · intro m hm
      rcases List.mem_append.mp hm with hm | hm
      · rcases List.mem_append.mp hm with hm | hm
        · exact hps m hm
        · exact hds m hm
      · rw [List.mem_singleton.mp hm]
        exact hplain

/-! ## Passes -/

/-- The row of a subvolume that is placed. -/
def subvolOf (it : RootInfo) (b : Backref) (path : Text) : Subvol :=
  { id := it.id, parent := b.parent, path := '/' :: path, generation := it.generation,
    readonly := it.readonly, snapshot := it.snapshot }

/-- What a pass does with a subvolume. -/
def placeStep (v : Volume) (refs : List (Nat × Backref)) (it : RootInfo) (p : Placed) :
    Outcome Placed :=
  match refs.lookup it.id with
  | none => .drop
  | some b =>
    match p.paths.lookup b.parent with
    | none => .wait
    | some q => .done
        { paths := (it.id, v.childPath q b) :: p.paths
          out := p.out ++ [subvolOf it b (v.childPath q b)] }

/-- The paths found so far are right. -/
def Placed.Right (v : Volume) (refs : List (Nat × Backref)) (p : Placed) : Prop :=
  ∀ id q, p.paths.lookup id = some q → v.PathTo refs id q

theorem Placed.Right.done {p : Placed} {it : RootInfo} {b : Backref} {q : Text} {out : List Subvol}
    (h : p.Right v refs) (hl : refs.lookup it.id = some b) (hp : p.paths.lookup b.parent = some q) :
    Placed.Right v refs ⟨(it.id, v.childPath q b) :: p.paths, out⟩ := by
  intro id q' hq
  rw [List.lookup_cons] at hq
  by_cases hid : id = it.id
  · subst hid
    simp only [beq_self_eq_true, Option.some.injEq] at hq
    exact hq ▸ .child hl (h _ _ hp)
  · rw [show (id == it.id) = false by simpa using hid] at hq
    exact h id q' hq

/-! ## What is placed -/

/-- The row of a subvolume that has a path. -/
def Volume.RowOf (v : Volume) (refs : List (Nat × Backref)) (its : List RootInfo) (s : Subvol) :
    Prop :=
  ∃ it ∈ its, ∃ b q, refs.lookup it.id = some b ∧ v.PathTo refs b.parent q ∧
    s = subvolOf it b (v.childPath q b)

/-- What holds between two tasks: the paths are right, the rows are those of
subvolumes that have one, none is listed twice, and none is lost. -/
structure Placing (v : Volume) (refs : List (Nat × Backref)) (its : List RootInfo) (p : Placed)
    (left : List RootInfo) : Prop where
  right : p.Right v refs
  top : (p.paths.lookup FS_TREE_OBJECTID).isSome
  sound : ∀ s ∈ p.out, v.RowOf refs its s
  nodup : (p.out.map Subvol.id ++ left.map RootInfo.id).Nodup
  among : ∀ it ∈ left, it ∈ its
  cover : ∀ it ∈ its, refs.lookup it.id = none ∨ it ∈ left ∨ (p.paths.lookup it.id).isSome
  listed : ∀ id, (p.paths.lookup id).isSome → id = FS_TREE_OBJECTID ∨ id ∈ p.out.map Subvol.id

theorem isSome_lookup_cons {A : Type} {k k' : Nat} {a : A} {l : List (Nat × A)} :
    (((k', a) :: l).lookup k).isSome ↔ k = k' ∨ (l.lookup k).isSome := by
  rw [List.lookup_cons]
  by_cases hk : k = k'
  · subst hk
    simp
  · have hne : (k == k') = false := by simpa using hk
    simp [hne, hk]

theorem Placing.start (its : List RootInfo) (hn : (its.map RootInfo.id).Nodup) :
    Placing v refs its ⟨[(FS_TREE_OBJECTID, [])], []⟩ its := by
  have hone {id : Nat} : ([(FS_TREE_OBJECTID, ([] : Text))].lookup id).isSome ↔
      id = FS_TREE_OBJECTID := by
    rw [isSome_lookup_cons]
    simp
  constructor
  · intro id q hq
    have hid : id = FS_TREE_OBJECTID := hone.mp (by rw [hq]; rfl)
    subst hid
    obtain rfl : ([] : Text) = q := Option.some.inj hq
    exact .top
  · exact hone.mpr rfl
  · exact fun s hs => absurd hs List.not_mem_nil
  · exact hn
  · exact fun it hit => hit
  · exact fun it hit => Or.inr (Or.inl hit)
  · exact fun id hid => Or.inl (hone.mp hid)

theorem Placing.done {its left : List RootInfo} {p p' : Placed} {it : RootInfo}
    (h : Placing v refs its p (it :: left)) (hs : placeStep v refs it p = .done p') :
    Placing v refs its p' left := by
  unfold placeStep at hs
  cases hlook : refs.lookup it.id with
  | none => rw [hlook] at hs; cases hs
  | some b =>
    rw [hlook] at hs
    dsimp only at hs
    cases hparent : p.paths.lookup b.parent with
    | none => rw [hparent] at hs; cases hs
    | some q =>
      rw [hparent] at hs
      cases hs
      constructor
      · exact h.right.done hlook hparent
      · exact isSome_lookup_cons.mpr (Or.inr h.top)
      · intro s hs
        rcases List.mem_append.mp hs with hs | hs
        · exact h.sound s hs
        · rw [List.mem_singleton.mp hs]
          exact ⟨it, h.among it List.mem_cons_self, b, q, hlook, h.right _ _ hparent, rfl⟩
      · have := h.nodup
        rw [List.map_cons] at this
        rw [List.map_append, List.append_assoc]
        exact this
      · exact fun i hi => h.among i (List.mem_cons_of_mem _ hi)
      · intro i hi
        rcases h.cover i hi with hnone | hleft | hsome
        · exact Or.inl hnone
        · rcases List.mem_cons.mp hleft with rfl | hleft
          · exact Or.inr (Or.inr (isSome_lookup_cons.mpr (Or.inl rfl)))
          · exact Or.inr (Or.inl hleft)
        · exact Or.inr (Or.inr (isSome_lookup_cons.mpr (Or.inr hsome)))
      · intro id hid
        rw [List.map_append, List.mem_append]
        rcases isSome_lookup_cons.mp hid with rfl | hid
        · exact Or.inr (Or.inr List.mem_cons_self)
        · rcases h.listed id hid with htop | hin
          · exact Or.inl htop
          · exact Or.inr (Or.inl hin)

theorem Placing.drop {its left : List RootInfo} {p : Placed} {it : RootInfo}
    (h : Placing v refs its p (it :: left)) (hs : placeStep v refs it p = .drop) :
    Placing v refs its p left := by
  have hnone : refs.lookup it.id = none := by
    unfold placeStep at hs
    cases hlook : refs.lookup it.id with
    | none => rfl
    | some b =>
      rw [hlook] at hs
      dsimp only at hs
      cases hparent : p.paths.lookup b.parent <;> rw [hparent] at hs <;> cases hs
  refine { h with nodup := ?_, among := ?_, cover := ?_ }
  · have := h.nodup
    rw [List.map_cons] at this
    exact this.sublist (List.Sublist.append_left (List.sublist_cons_self _ _) _)
  · exact fun i hi => h.among i (List.mem_cons_of_mem _ hi)
  · intro i hi
    rcases h.cover i hi with hn | hleft | hsome
    · exact Or.inl hn
    · rcases List.mem_cons.mp hleft with rfl | hleft
      · exact Or.inl hnone
      · exact Or.inr (Or.inl hleft)
    · exact Or.inr (Or.inr hsome)

theorem Placing.kept (its : List RootInfo) : Kept (placeStep v refs) (Placing v refs its) := by
  constructor
  · intro p is js hperm h
    refine { h with nodup := ?_, among := ?_, cover := ?_ }
    · exact ((hperm.map RootInfo.id).append_left _).nodup_iff.mp h.nodup
    · exact fun it hit => h.among it (hperm.mem_iff.mpr hit)
    · intro it hit
      rcases h.cover it hit with hn | hleft | hsome
      · exact Or.inl hn
      · exact Or.inr (Or.inl (hperm.mem_iff.mp hleft))
      · exact Or.inr (Or.inr hsome)
  · exact fun h hs => h.done hs
  · exact fun h hs => h.drop hs

section placed

variable {its left : List RootInfo} {p : Placed}

/-- When none of those left can be placed, what has a path has been found. -/
theorem Placing.complete (h : Placing v refs its p left)
    (hwait : ∀ it ∈ left, placeStep v refs it p = .wait)
    (hits : ∀ id b, refs.lookup id = some b → ∃ it ∈ its, it.id = id) {id : Nat} {q : Text}
    (hq : v.PathTo refs id q) : (p.paths.lookup id).isSome := by
  induction hq with
  | top => exact h.top
  | @child id b q hlook _ ih =>
    obtain ⟨it, hit, rfl⟩ := hits id b hlook
    rcases h.cover it hit with hnone | hleft | hsome
    · rw [hlook] at hnone
      cases hnone
    · have hw := hwait it hleft
      obtain ⟨q', hq'⟩ := Option.isSome_iff_exists.mp ih
      unfold placeStep at hw
      rw [hlook] at hw
      dsimp only at hw
      rw [hq'] at hw
      cases hw
    · exact hsome

/-- Then the rows are those of all subvolumes that have a path. -/
theorem Placing.mem_out (h : Placing v refs its p left) (hl : v.Lists refs)
    (hn : (its.map RootInfo.id).Nodup) (hwait : ∀ it ∈ left, placeStep v refs it p = .wait)
    (hits : ∀ id b, refs.lookup id = some b → ∃ it ∈ its, it.id = id) {s : Subvol} :
    s ∈ p.out ↔ v.RowOf refs its s := by
  refine ⟨h.sound s, ?_⟩
  rintro ⟨it, hit, b, q, hlook, hq, rfl⟩
  have hsome : (p.paths.lookup it.id).isSome := h.complete hwait hits (.child hlook hq)
  rcases h.listed _ hsome with htop | hin
  · rw [htop, hl.top] at hlook
    cases hlook
  · obtain ⟨s', hs', hid⟩ := List.mem_map.mp hin
    obtain ⟨it', hit', b', q', hlook', hq', rfl⟩ := h.sound s' hs'
    obtain rfl : it' = it := List.inj_on_of_nodup_map hn hit' hit hid
    rw [hlook] at hlook'
    cases hlook'
    rwa [hq.unique hl hq']

end placed

/-- A pass of the program is one of the list of tasks. -/
theorem Fs.Stores.placeAll (h : fs.Stores I v) (hw : v.WellFormed fs.crates) (hb : v.Backed)
    (hl : v.Lists refs) : ∀ (its : List RootInfo) {p : Placed}, p.Right v refs →
      Yields I (fs.placeAll refs its p) (.ok (pass (placeStep v refs) its p)) ∧
        (pass (placeStep v refs) its p).1.Right v refs
  | [], _, hp => ⟨Yields.pure _, hp⟩
  | it :: its, p, hp => by
    unfold Fs.placeAll
    rw [pass_cons, placeStep]
    cases hlook : refs.lookup it.id with
    | none => exact h.placeAll hw hb hl its hp
    | some b =>
      dsimp only
      cases hparent : p.paths.lookup b.parent with
      | none =>
        obtain ⟨hy, hp'⟩ := h.placeAll hw hb hl its hp
        exact ⟨hy.bind (Yields.pure _), hp'⟩
      | some q =>
        obtain ⟨x, hx, hxb⟩ := hl.of_lookup hlook
        obtain ⟨-, hpar⟩ := backrefOf_ok hxb
        have ht := (hp _ _ hparent).linked hb hl
        obtain ⟨r, hr, -⟩ := returns_iff.mp (hw.tree _ ht).root
        have hback := hb.backrefs x (Volume.mem_of_backref hx).1
        rw [hxb, ← hpar] at hback
        obtain ⟨raw, hraw, d, hd, -⟩ := returns_iff.mp hback.2.2
        obtain ⟨ds, hpath, -⟩ := h.reaches_dir hw hb ht hr hraw hd
        have hy := h.pathInTree ht b.dirid
        have hdone : Placed.Right v refs ⟨(it.id, v.childPath q b) :: p.paths,
          p.out ++ [subvolOf it b (v.childPath q b)]⟩ := hp.done hlook hparent
        obtain ⟨hrest, hright⟩ := h.placeAll hw hb hl its hdone
        refine ⟨?_, hright⟩
        rw [hpath] at hy
        apply hy.bind
        have hchild : v.childPath q b = joinPath ([q, joinPath ds, b.name].filter (· ≠ [])) := by
          rw [Volume.childPath, Volume.dirPath, hpath]
        rw [← hchild]
        exact hrest

/-- The passes of the program are those of the list of tasks. -/
theorem Fs.Stores.placePasses (h : fs.Stores I v) (hw : v.WellFormed fs.crates) (hb : v.Backed)
    (hl : v.Lists refs) : ∀ (n : Nat) (its : List RootInfo) {p : Placed}, p.Right v refs →
      Yields I (fs.placePasses refs n its p) (.ok (passes (placeStep v refs) n its p).1)
  | 0, _, _, _ => Yields.pure _
  | n + 1, its, p, hp => by
    unfold Fs.placePasses
    rw [passes_eq]
    split_ifs with hnil hlen hlen
    · subst hnil
      exact Yields.pure _
    · subst hnil
      exact absurd rfl hlen
    · obtain ⟨hy, -⟩ := h.placeAll hw hb hl its hp
      apply hy.bind
      dsimp only
      rw [if_pos hlen]
      exact Yields.pure _
    · obtain ⟨hy, hp'⟩ := h.placeAll hw hb hl its hp
      apply hy.bind
      dsimp only
      rw [if_neg hlen]
      exact h.placePasses hw hb hl n _ hp'

end stored

/-! ## The loop ends -/

/-- A pass leaves no more than it was given. -/
theorem Fs.placeAll_left (fs : Fs β) (refs : List (Nat × Backref)) : ∀ (its : List RootInfo)
    (p : Placed), Ensures (fun _ => True) (fs.placeAll refs its p)
      (fun r _ => r.2.length ≤ its.length) (fun _ _ => True)
  | [], p => Ensures.pure fun _ _ => Nat.le_refl _
  | it :: its, p => by
    have next (p : Placed) : Ensures (fun _ => True) (fs.placeAll refs its p)
        (fun r _ => r.2.length ≤ (it :: its).length) (fun _ _ => True) :=
      (fs.placeAll_left refs its p).mono (fun _ h => h) (fun r _ h => Nat.le_succ_of_le h)
        fun _ _ h => h
    unfold placeAll
    cases refs.lookup it.id with
    | none => exact next p
    | some b =>
      dsimp only
      cases p.paths.lookup b.parent with
      | none =>
        apply (fs.placeAll_left refs its p).bind
        intro r
        exact Ensures.pure fun _ h => Nat.succ_le_succ h
      | some q =>
        apply Ensures.bind (Q := fun _ _ => True)
        · intro s _
          cases fs.pathInTree b.parent b.dirid s <;> trivial
        · exact fun _ => next _

/-- One more pass than there are subvolumes changes nothing. -/
theorem Fs.placePasses_succ (fs : Fs β) (refs : List (Nat × Backref)) : ∀ {n : Nat}
    {its : List RootInfo} (p : Placed), its.length ≤ n →
      Coincide (fun _ => True) (fs.placePasses refs (n + 1) its p) (fs.placePasses refs n its p)
        (fun _ _ => True) (fun _ _ => True)
  | 0, its, p, h => by
    obtain rfl : its = [] := List.eq_nil_of_length_eq_zero (Nat.le_zero.mp h)
    unfold placePasses
    rw [if_pos rfl]
    exact Coincide.refl (Ensures.pure fun _ h => h)
  | n + 1, its, p, h => by
    unfold placePasses
    refine Coincide.ite (fun _ => Coincide.refl (Ensures.pure fun _ h => h)) fun _ => ?_
    refine (Coincide.refl (fs.placeAll_left refs its p)).bind fun r => ?_
    refine Coincide.assume (fun _ hr => hr) fun hr => ?_
    refine Coincide.ite (fun _ => Coincide.refl (Ensures.pure fun _ _ => trivial)) fun hlen => ?_
    exact (fs.placePasses_succ refs r.1 (by omega)).mono (fun _ _ => trivial) fun _ _ h => h

/-- With passes enough, their number does not matter. -/
theorem Fs.placePasses_enough (fs : Fs β) (refs : List (Nat × Backref)) {n : Nat}
    {its : List RootInfo} (p : Placed) (h : its.length ≤ n) :
    fs.placePasses refs n its p = fs.placePasses refs its.length its p := by
  induction n, h using Nat.le_induction with
  | base => rfl
  | succ n hn ih =>
    rw [← ih]
    funext s
    exact ((fs.placePasses_succ refs p hn).2 s trivial).symm

/-! ## The listing -/

theorem rootInfoOf_ok {x : Key × Bytes} {i : RootInfo} (h : rootInfoOf x = .ok i) :
    i.id = x.1.objectid := by
  obtain ⟨_, -, h⟩ := except_bind_ok.mp h
  obtain ⟨_, -, h⟩ := except_bind_ok.mp h
  obtain ⟨_, -, h⟩ := except_bind_ok.mp h
  cases h
  rfl

theorem ids_rootInfos {l : List (Key × Bytes)} {is : List RootInfo}
    (h : l.mapM rootInfoOf = .ok is) : is.map RootInfo.id = l.map fun x => x.1.objectid := by
  induction mapM_ok_iff.mp h with
  | nil => rfl
  | cons hx hr ih =>
    rw [List.map_cons, List.map_cons, ih (mapM_ok_iff.mpr hr), rootInfoOf_ok hx]

theorem visit_eq (k : Key) (d : Bytes) (r : RootItems) :
    RootItems.visit k d r = ((RootItems.visit k d r).map Prod.snd).map fun r => (true, r) := by
  by_cases h : k.ty = ROOT_ITEM_KEY
  · rw [visit_rootItem h]
    cases rootInfoOf (k, d) <;> rfl
  · by_cases h' : k.ty = ROOT_BACKREF_KEY
    · rw [visit_backref h']
      cases backrefOf (k, d) <;> rfl
    · rw [visit_other h h']
      rfl

/-- Lists of the same rows of different ids are sorted into one. -/
theorem insertionSort_eq {a b : List Subvol} (ha : (a.map Subvol.id).Nodup)
    (hb : (b.map Subvol.id).Nodup) (h : ∀ s, s ∈ a ↔ s ∈ b) :
    a.insertionSort Fs.bySubvolId = b.insertionSort Fs.bySubvolId := by
  have : Std.Total Fs.bySubvolId := ⟨fun a b => Nat.le_total a.id b.id⟩
  have : IsTrans Subvol Fs.bySubvolId := ⟨fun a b c => Nat.le_trans (n := a.id)⟩
  have hperm : a.Perm b := (List.perm_ext_iff_of_nodup ha.of_map hb.of_map).mpr h
  refine List.Perm.eq_of_pairwise ?_ (List.pairwise_insertionSort _ a)
    (List.pairwise_insertionSort _ b)
    (((List.perm_insertionSort _ a).trans hperm).trans (List.perm_insertionSort _ b).symm)
  intro x y hx hy hxy hyx
  have hx : x ∈ b := (h x).mp ((List.mem_insertionSort _).mp hx)
  have hy : y ∈ b := (List.mem_insertionSort _).mp hy
  exact List.inj_on_of_nodup_map hb hx hy (Nat.le_antisymm hxy hyx)

theorem pairwise_insertionSort {a : List Subvol} (ha : (a.map Subvol.id).Nodup) :
    (a.insertionSort Fs.bySubvolId).Pairwise fun s t => s.id < t.id := by
  have : Std.Total Fs.bySubvolId := ⟨fun a b => Nat.le_total a.id b.id⟩
  have : IsTrans Subvol Fs.bySubvolId := ⟨fun a b c => Nat.le_trans (n := a.id)⟩
  have hn : ((a.insertionSort Fs.bySubvolId).map Subvol.id).Nodup :=
    ((List.perm_insertionSort _ a).map Subvol.id).nodup_iff.mpr ha
  have hne := List.pairwise_map.mp hn
  exact (List.pairwise_insertionSort Fs.bySubvolId a).and hne |>.imp fun h =>
    Nat.lt_of_le_of_ne h.1 h.2

/-- What `Fs.subvols` does after the walk. -/
def Fs.placeSorted (fs : Fs β) (refs : List (Nat × Backref)) (its : List RootInfo) :
    FsM β (List Subvol) := do
  let p ← fs.placePasses refs its.length its ⟨[(FS_TREE_OBJECTID, [])], []⟩
  pure (p.out.insertionSort bySubvolId)

section listed

variable {fs : Fs β} {I : FsState β → Prop} {v : Volume} {refs : List (Nat × Backref)}

/-- What is placed of the subvolumes, in any order. -/
theorem Fs.Stores.placed (h : fs.Stores I v) (hw : v.WellFormed fs.crates) (hb : v.Backed)
    (hl : v.Lists refs) {its : List RootInfo} (hn : (its.map RootInfo.id).Nodup)
    (hits : ∀ id b, refs.lookup id = some b → ∃ it ∈ its, it.id = id) :
    ∃ out : List Subvol, Yields I (fs.placeSorted refs its) (.ok (out.insertionSort bySubvolId)) ∧
      (out.map Subvol.id).Nodup ∧ ∀ s, s ∈ out ↔ v.RowOf refs its s := by
  have hstart : Placing v refs its ⟨[(FS_TREE_OBJECTID, [])], []⟩ its := Placing.start its hn
  have hinv := passes_inv (n := its.length) (Placing.kept its) hstart
  have hwait : ∀ it ∈ (passes (placeStep v refs) its.length its ⟨[(FS_TREE_OBJECTID, [])], []⟩).2, _ :=
    passes_wait (Nat.le_refl its.length)
  refine ⟨_, (h.placePasses hw hb hl its.length its hstart.right).bind (Yields.pure _), ?_, ?_⟩
  · exact hinv.nodup.of_append_left
  · exact fun s => hinv.mem_out hl hn hwait hits

/-- The rows are those of the subvolumes that climb to the top level. -/
theorem Volume.rowOf_iff (hl : v.Lists refs) {its : List RootInfo}
    (hits : (v.rootsOf ROOT_ITEM_KEY).mapM rootInfoOf = .ok its) {id : Nat} :
    (∃ s, v.RowOf refs its s ∧ s.id = id) ↔
      (∃ x ∈ v.rootsOf ROOT_ITEM_KEY, x.1.objectid = id) ∧ v.Climbs id := by
  constructor
  · rintro ⟨_, ⟨it, hit, b, q, hlook, hq, rfl⟩, rfl⟩
    obtain ⟨x, hx, hi⟩ := exists_of_mem_mapM hits hit
    refine ⟨⟨x, hx, (rootInfoOf_ok hi).symm⟩, (Volume.climbs_iff hl).mpr ⟨?_, _, .child hlook hq⟩⟩
    intro htop
    have hid : it.id = FS_TREE_OBJECTID := htop
    rw [hid, hl.top] at hlook
    cases hlook
  · rintro ⟨⟨x, hx, rfl⟩, hc⟩
    obtain ⟨it, hit, hi⟩ := exists_mem_mapM hits hx
    have hid : it.id = x.1.objectid := rootInfoOf_ok hi
    obtain ⟨htop, q, hq⟩ := (Volume.climbs_iff hl).mp hc
    rw [← hid] at hq htop
    generalize hgen : it.id = id at hq htop
    cases hq with
    | top => exact absurd rfl htop
    | child hlook hq =>
      rw [← hgen] at hlook
      exact ⟨_, ⟨it, hit, _, _, hlook, hq, rfl⟩, hid⟩

/-- A row's path leads to the root of its tree. -/
theorem Fs.Stores.resolve_row (h : fs.Stores I v) (hw : v.WellFormed fs.crates) (hb : v.Backed)
    (hl : v.Lists refs) {its : List RootInfo} {s : Subvol} (hs : v.RowOf refs its s) :
    ∃ r, v.tree s.id = .ok r ∧ Yields I (fs.resolve s.path) (.ok ⟨s.id, r.rootDirid⟩) := by
  obtain ⟨it, -, b, q, hlook, hq, rfl⟩ := hs
  obtain ⟨root, hroot, -⟩ := returns_iff.mp (hw.tree _ .top).root
  obtain ⟨ps, r, hps, hplain, hr, hreach⟩ := (hq.child hlook).reaches h hw hb hl hroot
  refine ⟨r, hr, Fs.Reaches.resolve (r := ⟨FS_TREE_OBJECTID, root.rootDirid⟩) ?_ ?_⟩
  · show fs.Reaches I _ (Fs.pathParts ('/' :: v.childPath q b)) _
    rw [hps, show '/' :: joinPath ps = [] ++ '/' :: joinPath ps from rfl, Fs.pathParts_append,
      Fs.pathParts_nil, List.nil_append, pathParts_joinPath hplain]
    exact hreach
  · have := h.root
    rw [Volume.root, hroot] at this
    exact this

/-- The walk over the root tree reads the root items and the back references. -/
theorem Fs.Stores.subvols (h : fs.Stores I v) (hb : v.Backed) :
    ∃ its refs, (v.rootsOf ROOT_ITEM_KEY).mapM rootInfoOf = .ok its ∧
      (v.rootsOf ROOT_BACKREF_KEY).mapM backrefOf = .ok refs ∧ ∀ subs,
        Yields I (fs.placeSorted refs.reverse its) (.ok subs) → Yields I fs.subvols (.ok subs) := by
  have hinfos : ∀ x ∈ inRange (⟨FIRST_FREE_OBJECTID, 0, 0⟩ : Key)
      ⟨LAST_FREE_OBJECTID, 255, U64_MAX⟩ v.roots, x.1.ty = ROOT_ITEM_KEY →
        ∃ i, rootInfoOf x = .ok i := by
    intro x hx hty
    have hx : x ∈ v.rootsOf ROOT_ITEM_KEY := List.mem_filter.mpr ⟨hx, by simpa using hty⟩
    obtain ⟨i, hi, -⟩ := returns_iff.mp (hb.infos x hx)
    exact ⟨i, hi⟩
  have hrefs : ∀ x ∈ inRange (⟨FIRST_FREE_OBJECTID, 0, 0⟩ : Key)
      ⟨LAST_FREE_OBJECTID, 255, U64_MAX⟩ v.roots, x.1.ty = ROOT_BACKREF_KEY →
        ∃ b, backrefOf x = .ok b := by
    intro x hx hty
    have hx : x ∈ v.rootsOf ROOT_BACKREF_KEY := List.mem_filter.mpr ⟨hx, by simpa using hty⟩
    obtain ⟨b, hb, -⟩ := returns_iff.mp (hb.backrefs x hx)
    exact ⟨b, hb⟩
  obtain ⟨its, refs, hits, hbs, hfold⟩ := foldlM_visit ⟨[], []⟩ hinfos hrefs
  refine ⟨its, refs, hits, hbs, fun subs hsubs => ?_⟩
  have hn : (its.map RootInfo.id).Nodup := by
    rw [ids_rootInfos hits]
    exact hb.once
  have hfeed := (feed_foldlM visit_eq _ _).trans hfold
  rw [List.nil_append, List.append_nil] at hfeed
  show Yields I fs.subvols ((.ok ⟨its, refs.reverse⟩ : Except Error RootItems) >>= fun _ => .ok subs)
  refine walk_seq (f := fun r => fs.placeSorted r.backrefs (dedupById none r.items))
    (h.walk_roots ..) hfeed fun t ht => ?_
  cases ht
  rw [dedupById_of_nodup (fun x _ hx => by cases hx) hn]
  exact hsubs

/-- On a well-formed filesystem exactly the subvolumes whose back references reach the
top level are listed, each once and by id, whatever the order of the root items, and
the path of each resolves to its root. The passes end by themselves. -/
theorem Fs.subvols_complete (h : fs.Stores I v) (hw : v.WellFormed fs.crates) (hb : v.Backed) :
    ∃ subs items refs, Yields I fs.subvols (.ok subs) ∧
      (∀ id, (∃ s ∈ subs, s.id = id) ↔
        (∃ x ∈ v.rootsOf ROOT_ITEM_KEY, x.1.objectid = id) ∧ v.Climbs id) ∧
      subs.Pairwise (fun s t => s.id < t.id) ∧
      (∀ s ∈ subs, ∃ r, v.tree s.id = .ok r ∧
        Yields I (fs.resolve s.path) (.ok ⟨s.id, r.rootDirid⟩)) ∧
      (v.rootsOf ROOT_ITEM_KEY).mapM rootInfoOf = .ok items ∧
      (v.rootsOf ROOT_BACKREF_KEY).mapM backrefOf = .ok refs ∧
      (∀ its, its.Perm items → Yields I (fs.placeSorted refs.reverse its) (.ok subs)) ∧
      ∀ (fs' : Fs β) (refs : List (Nat × Backref)) (its : List RootInfo) (p : Placed) (n : Nat),
        its.length ≤ n → fs'.placePasses refs n its p = fs'.placePasses refs its.length its p := by
  obtain ⟨items, refs, hits, hrefs, hrun⟩ := h.subvols hb
  have hl : v.Lists refs.reverse := Volume.lists hrefs
  have hn : (items.map RootInfo.id).Nodup := by
    rw [ids_rootInfos hits]
    exact hb.once
  have hall : ∀ id b, refs.reverse.lookup id = some b → ∃ it ∈ items, it.id = id := by
    intro id b hlook
    obtain ⟨x, hx, hxb⟩ := hl.of_lookup hlook
    obtain ⟨hmem, rfl⟩ := Volume.mem_of_backref hx
    have hback := hb.backrefs x hmem
    rw [hxb] at hback
    obtain ⟨y, hy, hid⟩ := hback.2.1
    obtain ⟨it, hit, hi⟩ := exists_mem_mapM hits hy
    exact ⟨it, hit, (rootInfoOf_ok hi).trans hid⟩
  obtain ⟨out, hout, hnodup, hmem⟩ := h.placed hw hb hl hn hall
  have hrow (s : Subvol) : s ∈ out.insertionSort bySubvolId ↔ v.RowOf refs.reverse items s :=
    (List.mem_insertionSort _).trans (hmem s)
  refine ⟨_, items, refs, hrun _ hout, ?_, pairwise_insertionSort hnodup, ?_, hits, hrefs, ?_, ?_⟩
  · intro id
    rw [← Volume.rowOf_iff hl hits]
    exact exists_congr fun s => and_congr_left' (hrow s)
  · exact fun s hs => h.resolve_row hw hb hl ((hrow s).mp hs)
  · intro its hperm
    have hn' : (its.map RootInfo.id).Nodup := (hperm.map RootInfo.id).nodup_iff.mpr hn
    have hall' : ∀ id b, refs.reverse.lookup id = some b → ∃ it ∈ its, it.id = id := by
      intro id b hlook
      obtain ⟨it, hit, hid⟩ := hall id b hlook
      exact ⟨it, hperm.mem_iff.mpr hit, hid⟩
    obtain ⟨out', hout', hnodup', hmem'⟩ := h.placed hw hb hl hn' hall'
    have hsame : ∀ s, s ∈ out' ↔ s ∈ out := by
      intro s
      rw [hmem s, hmem' s]
      exact exists_congr fun it => and_congr_left' hperm.mem_iff
    rwa [insertionSort_eq hnodup' hnodup hsame] at hout'
  · exact fun fs' refs its p n hlen => fs'.placePasses_enough refs p hlen

end listed

namespace Image

/-- An INODE_REF's data. -/
def inodeRef (name : Bytes) : Bytes := zeros 8 ++ (Bytes.toLE 2 name.length ++ name)

/-- A ROOT_BACKREF's data. -/
def rootBackref (dirid : Nat) (name : Bytes) : Bytes :=
  Bytes.toLE 8 dirid ++ (zeros 8 ++ (Bytes.toLE 2 name.length ++ name))

/-- The entry of a subvolume. -/
def subvolEntry (id : Nat) (name : Bytes) : Bytes :=
  (Key.mk id ROOT_ITEM_KEY 0).bytes ++ (zeros 10 ++ (Bytes.toLE 2 name.length ++
    (Bytes.toLE 1 FT_DIR ++ name)))

/-- The tree of subvolume 257: a directory `d`, which holds subvolume 256 as `c`. -/
def parentTree : List (Key × Bytes) :=
  [(⟨ROOT_DIR, INODE_ITEM_KEY, 0⟩, inodeItem 0 0o40755),
    (⟨ROOT_DIR, DIR_ITEM_KEY, nameHash crates [0x64]⟩, dirItem 300 FT_DIR [0x64]),
    (⟨ROOT_DIR, DIR_INDEX_KEY, 2⟩, dirItem 300 FT_DIR [0x64]),
    (⟨300, INODE_ITEM_KEY, 0⟩, inodeItem 0 0o40755),
    (⟨300, INODE_REF_KEY, ROOT_DIR⟩, inodeRef [0x64]),
    (⟨300, DIR_ITEM_KEY, nameHash crates [0x63]⟩, subvolEntry 256 [0x63]),
    (⟨300, DIR_INDEX_KEY, 2⟩, subvolEntry 256 [0x63])]

/-- Subvolume 256 is inside 257, into which it was moved. -/
def moved : Volume where
  roots := [(⟨FS_TREE_OBJECTID, ROOT_ITEM_KEY, 0⟩, rootItem ROOT_DIR FS_TREE),
    (⟨FS_TREE_OBJECTID, ROOT_REF_KEY, 257⟩, []), (⟨256, ROOT_ITEM_KEY, 0⟩, rootItem ROOT_DIR 0x15000),
    (⟨256, ROOT_BACKREF_KEY, 257⟩, rootBackref 300 [0x63]),
    (⟨257, ROOT_ITEM_KEY, 0⟩, rootItem ROOT_DIR DATA),
    (⟨257, ROOT_BACKREF_KEY, FS_TREE_OBJECTID⟩, rootBackref ROOT_DIR [0x73]),
    (⟨257, ROOT_REF_KEY, 256⟩, [])]
  items id := if id = FS_TREE_OBJECTID then oneSubvol 257 [0x73]
    else if id = 257 then parentTree else [(⟨ROOT_DIR, INODE_ITEM_KEY, 0⟩, inodeItem 0 0o40755)]

def movedLeaves : List (Nat × List (Key × Bytes)) :=
  [(ROOT_TREE, moved.roots), (FS_TREE, moved.items FS_TREE_OBJECTID), (DATA, moved.items 257),
    (0x15000, moved.items 256)]

/-- Its trees can be written, and are in order; two of them are referred back. -/
theorem ok_moved : (∀ x ∈ movedLeaves, SearchTree.Ascending x.2) ∧
    (∀ x ∈ movedLeaves, (leaf x.1 x.2).length < 2 ^ 32) ∧ (∀ x ∈ movedLeaves, ∀ y ∈ x.2, y.1.Fits) ∧
    (∀ x ∈ moved.roots, x.1.ty = ROOT_REF_KEY → x.1.objectid ∈ [FS_TREE_OBJECTID, 256, 257] →
      x.1.offset ∈ [FS_TREE_OBJECTID, 256, 257]) ∧
    moved.rootItem 0 = none ∧
    (∀ t ∈ [FS_TREE_OBJECTID, 256, 257], moved.TreeOk crates t ∧ moved.RefsOk t ∧
      Returns (moved.tree t) fun r => movedLeaves.lookup r.bytenr = some (moved.items t)) ∧
    moved.backref 256 = some (⟨256, ROOT_BACKREF_KEY, 257⟩, rootBackref 300 [0x63]) ∧
    moved.backref 257 = some (⟨257, ROOT_BACKREF_KEY, FS_TREE_OBJECTID⟩, rootBackref ROOT_DIR [0x73]) := by
  decide +kernel

theorem linked_moved {t : Nat} (h : moved.Linked t) : t ∈ [FS_TREE_OBJECTID, 256, 257] :=
  Volume.linked_of_closed (by decide) ok_moved.2.2.2.1 h

theorem stores_moved : (fs []).Stores (Cached movedLeaves moved) moved := by
  obtain ⟨hasc, hlen, hfit, -, -, htrees, -⟩ := ok_moved
  exact stores_leaves rfl (fun t => linked_moved) (fun t ht => (htrees t ht).2.2) hasc hlen hfit

theorem wellFormed_moved : moved.WellFormed crates where
  tree t ht := (ok_moved.2.2.2.2.2.1 t (linked_moved ht)).1
  placeholder := ok_moved.2.2.2.2.1

theorem backed_moved : moved.Backed where
  infos := by decide +kernel
  once := by decide +kernel
  backrefs := by decide +kernel
  refs t ht := (ok_moved.2.2.2.2.2.1 t (linked_moved ht)).2.1

end Image

open Image in
/-- A subvolume listed before the one it was moved into. -/
theorem Fs.subvols_complete_moved : ∃ subs : List Subvol,
    Yields (Cached movedLeaves moved) (fs []).subvols (.ok subs) ∧ (∃ s ∈ subs, s.id = 256) ∧
    ∀ s ∈ subs, ∃ r, moved.tree s.id = .ok r ∧
      Yields (Cached movedLeaves moved) ((fs []).resolve s.path) (.ok ⟨s.id, r.rootDirid⟩) := by
  obtain ⟨subs, _, _, hrun, hids, -, hpaths, -⟩ :=
    Fs.subvols_complete stores_moved wellFormed_moved backed_moved
  obtain ⟨-, -, -, -, -, -, hchild, hparent⟩ := ok_moved
  refine ⟨subs, hrun, (hids 256).mpr ⟨by decide, ?_⟩, hpaths⟩
  exact .next hchild (.top hparent rfl)

end BtrfsPeek
