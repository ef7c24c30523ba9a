import BtrfsPeek.Fs.Subvols

/-!
# Which root item is believed

A subvolume may have several root items, one for each time it was made. A tree is read
from the newest (`Fs.tree`), and `Fs.isSnapshot` looks at the newest, too. The listing
keeps the oldest (`find?_of_mem_dedupById`), so that its rows are right where the two say the same
(`Fs.subvols_believed_iff`).
-/

namespace BtrfsPeek

open Effect SearchTree

variable {β : Type}

/-! ## The root items of a tree -/

/-- A key is read from eight bytes. -/
theorem Node.item_offset {n : Node} {i : Nat} {x : Key × Bytes} (h : n.item i = .ok x) :
    x.1.offset ≤ U64_MAX := by
  obtain ⟨key, hkey, h⟩ := except_bind_ok.mp h
  obtain ⟨_, -, h⟩ := except_bind_ok.mp h
  obtain ⟨_, -, h⟩ := except_bind_ok.mp h
  obtain ⟨_, -, h⟩ := except_bind_ok.mp h
  cases h
  obtain ⟨_, -, hkey⟩ := except_bind_ok.mp hkey
  obtain ⟨_, -, hkey⟩ := except_bind_ok.mp hkey
  obtain ⟨offset, hoffset, hkey⟩ := except_bind_ok.mp hkey
  cases hkey
  exact Nat.le_sub_one_of_lt (u64At_lt hoffset)

theorem LeafAt.offset_le {blocks : Nat → Option Node} {p : Nat} {items : List (Key × Bytes)}
    (h : LeafAt blocks p items) : ∀ x ∈ items, x.1.offset ≤ U64_MAX := by
  obtain ⟨n, -, -, hitems⟩ := h
  intro x hx
  obtain ⟨i, hi, rfl⟩ := List.mem_iff_getElem.mp hx
  exact Node.item_offset (hitems.2 i hi)

namespace Volume

variable (v : Volume)

/-- The root items of a tree. -/
def rootItems (id : Nat) : List (Key × Bytes) := itemsOf v.roots id ROOT_ITEM_KEY

/-- The root item of a tree with the smallest offset. -/
def Oldest (id : Nat) (x : Key × Bytes) : Prop :=
  x ∈ v.rootItems id ∧ ∀ y ∈ v.rootItems id, x.1.offset ≤ y.1.offset

/-- The root item of a tree with the largest offset. -/
def Newest (id : Nat) (x : Key × Bytes) : Prop :=
  x ∈ v.rootItems id ∧ ∀ y ∈ v.rootItems id, y.1.offset ≤ x.1.offset

variable {v}

/-- The root items of a tree ascend by their offsets. -/
theorem rootItems_ascending (h : Ascending v.roots) (id : Nat) :
    (v.rootItems id).Pairwise fun x y => x.1.offset < y.1.offset := by
  have hasc : Ascending (v.rootItems id) := h.sublist List.filter_sublist
  apply List.Pairwise.imp_of_mem (S := fun x y : Key × Bytes => x.1.offset < y.1.offset) ?_ hasc
  intro x y hx hy hlt
  obtain ⟨-, hxo, hxt, -⟩ := mem_itemsOf.mp hx
  obtain ⟨-, hyo, hyt, -⟩ := mem_itemsOf.mp hy
  rw [Key.lt_def] at hlt
  omega

/-- The oldest of them is the first. -/
theorem oldest_iff (h : Ascending v.roots) {id : Nat} {x : Key × Bytes} :
    v.Oldest id x ↔ (v.rootItems id).head? = some x := by
  have hasc := rootItems_ascending h id
  unfold Oldest
  cases hl : v.rootItems id with
  | nil => exact ⟨fun ⟨hx, _⟩ => absurd hx List.not_mem_nil, fun hx => nomatch hx⟩
  | cons y l =>
    rw [hl, List.pairwise_cons] at hasc
    constructor
    · rintro ⟨hx, hmin⟩
      rcases List.mem_cons.mp hx with rfl | hx
      · rfl
      · exact absurd (hasc.1 x hx) (Nat.not_lt.mpr (hmin y List.mem_cons_self))
    · intro hx
      obtain rfl : y = x := Option.some.inj hx
      refine ⟨List.mem_cons_self, fun z hz => ?_⟩
      rcases List.mem_cons.mp hz with rfl | hz
      · exact Nat.le_refl _
      · exact Nat.le_of_lt (hasc.1 z hz)

/-- The newest of them is the last. -/
theorem newest_iff (h : Ascending v.roots) {id : Nat} {x : Key × Bytes} :
    v.Newest id x ↔ (v.rootItems id).getLast? = some x := by
  have hasc := rootItems_ascending h id
  unfold Newest
  rcases List.eq_nil_or_concat (v.rootItems id) with hl | ⟨l, y, hl⟩
  · rw [hl]
    exact ⟨fun ⟨hx, _⟩ => absurd hx List.not_mem_nil, fun hx => nomatch hx⟩
  · rw [List.concat_eq_append] at hl
    rw [hl, List.pairwise_append] at hasc
    rw [hl, List.getLast?_append]
    have hlt : ∀ z ∈ l, z.1.offset < y.1.offset := fun z hz => hasc.2.2 z hz y (List.mem_singleton.mpr rfl)
    constructor
    · rintro ⟨hx, hmax⟩
      rcases List.mem_append.mp hx with hx | hx
      · have := hmax y (List.mem_append_right _ (List.mem_singleton.mpr rfl))
        exact absurd (hlt x hx) (Nat.not_lt.mpr this)
      · rw [List.mem_singleton.mp hx]
        rfl
    · intro hx
      obtain rfl : y = x := Option.some.inj hx
      refine ⟨List.mem_append_right _ (List.mem_singleton.mpr rfl), fun z hz => ?_⟩
      rcases List.mem_append.mp hz with hz | hz
      · exact Nat.le_of_lt (hlt z hz)
      · rw [List.mem_singleton.mp hz]

end Volume

/-! ## What the walks keep -/

theorem snapshotBit_ok (d : Bytes) : ∃ b, snapshotBit d = .ok b := by
  unfold snapshotBit
  split_ifs with h
  · rw [bytes_of_le (by omega)]
    exact ⟨_, rfl⟩
  · exact ⟨_, rfl⟩

/-- The last of a list is what is kept. -/
theorem foldlM_snapshotBit : ∀ (l : List (Key × Bytes)) (b : Bool),
    l.foldlM (fun _ x => snapshotBit x.2) b =
      match l.getLast? with
      | none => .ok b
      | some x => snapshotBit x.2
  | [], _ => rfl
  | x :: l, b => by
    obtain ⟨c, hc⟩ := snapshotBit_ok x.2
    rw [List.foldlM_cons, hc]
    show l.foldlM _ c = _
    rw [foldlM_snapshotBit l c]
    cases l with
    | nil => exact hc.symm
    | cons y l => rw [List.getLast?_cons_cons, List.getLast?_cons]

theorem Volume.isSnapshot_of_newest {v : Volume} (h : Ascending v.roots) {id : Nat}
    {x : Key × Bytes} (hx : v.Newest id x) : v.isSnapshot id = snapshotBit x.2 := by
  have hlast := (Volume.newest_iff h).mp hx
  rw [Volume.rootItems] at hlast
  rw [Volume.isSnapshot, foldlM_snapshotBit, hlast]

/-- The root items that the walk of the listing has kept. -/
theorem items_of_foldlM : ∀ {l : List (Key × Bytes)} {r r' : RootItems},
    l.foldlM (fun r x => (RootItems.visit x.1 x.2 r).map Prod.snd) r = .ok r' →
    ∃ infos, (l.filter fun x => x.1.ty = ROOT_ITEM_KEY).mapM rootInfoOf = .ok infos ∧
      r'.items = r.items ++ infos
  | [], r, r', h => by
    obtain rfl : r = r' := Except.ok.inj h
    exact ⟨[], rfl, (List.append_nil _).symm⟩
  | x :: l, r, r', h => by
    rw [List.foldlM_cons] at h
    obtain ⟨r₁, hx, h⟩ := except_bind_ok.mp h
    obtain ⟨infos, hinfos, hr'⟩ := items_of_foldlM h
    by_cases hty : x.1.ty = ROOT_ITEM_KEY
    · rw [visit_rootItem hty] at hx
      cases hi : rootInfoOf x with
      | error e =>
        rw [show rootInfoOf (x.1, x.2) = _ from hi] at hx
        exact nomatch hx
      | ok i =>
        rw [show rootInfoOf (x.1, x.2) = _ from hi] at hx
        obtain rfl : { r with items := r.items ++ [i] } = r₁ := Except.ok.inj hx
        refine ⟨i :: infos, ?_, ?_⟩
        · rw [List.filter_cons_of_pos (by simpa using hty), List.mapM_cons, hi, hinfos]
          rfl
        · rw [hr', List.append_assoc]
          rfl
    · refine ⟨infos, ?_, ?_⟩
      · rw [List.filter_cons_of_neg (by simpa using hty)]
        exact hinfos
      · rw [hr']
        by_cases hback : x.1.ty = ROOT_BACKREF_KEY
        · rw [visit_backref hback] at hx
          cases hb : backrefOf x with
          | error e =>
            rw [show backrefOf (x.1, x.2) = _ from hb] at hx
            exact nomatch hx
          | ok b =>
            rw [show backrefOf (x.1, x.2) = _ from hb] at hx
            obtain rfl : { r with backrefs := b :: r.backrefs } = r₁ := Except.ok.inj hx
            rfl
        · rw [visit_other hty hback] at hx
          obtain rfl : r = r₁ := Except.ok.inj hx
          rfl

/-- Of the items of one id the first is kept. -/
theorem find?_of_mem_dedupById : ∀ {l : List RootInfo} {last : Option Nat} {it : RootInfo},
    (l.Pairwise fun x y => x.id ≤ y.id) → (∀ a ∈ last, ∀ x ∈ l, a ≤ x.id) →
    it ∈ dedupById last l → last ≠ some it.id ∧ l.find? (fun x => x.id = it.id) = some it
  | [], last, it, _, _, hit => absurd hit List.not_mem_nil
  | x :: l, last, it, hsort, hlast, hit => by
    obtain ⟨hx, hsort⟩ := List.pairwise_cons.mp hsort
    have hlast' : ∀ a ∈ last, ∀ y ∈ l, a ≤ y.id := fun a ha y hy => hlast a ha y (List.mem_cons_of_mem _ hy)
    rw [dedupById] at hit
    split_ifs at hit with hsame
    · obtain ⟨hne, hfind⟩ := find?_of_mem_dedupById hsort hlast' hit
      have hid : ¬ x.id = it.id := fun he => hne (he ▸ hsame)
      exact ⟨hne, by rw [List.find?_cons_of_neg (by simpa using hid), hfind]⟩
    · rcases List.mem_cons.mp hit with rfl | hit
      · exact ⟨hsame, List.find?_cons_of_pos (by simp)⟩
      · obtain ⟨hne, hfind⟩ := find?_of_mem_dedupById hsort (fun a ha => Option.some.inj ha ▸ hx) hit
        have hid : ¬ x.id = it.id := fun he => hne (congrArg some he)
        refine ⟨fun he => ?_, by rw [List.find?_cons_of_neg (by simpa using hid), hfind]⟩
        have h₁ := hlast _ he x List.mem_cons_self
        have h₂ := hx it (List.mem_of_find?_eq_some hfind)
        exact hid (by omega)

/-- What the listing was told by the root item it made a row of. -/
def Subvol.info (s : Subvol) : RootInfo where
  id := s.id
  generation := s.generation
  readonly := s.readonly
  snapshot := s.snapshot

/-- A pass makes rows of the subvolumes it is given. -/
theorem Fs.placeAll_rows (fs : Fs β) (refs : List (Nat × Backref)) : ∀ (its : List RootInfo)
    (p : Placed), Ensures (fun _ => True) (fs.placeAll refs its p)
      (fun r _ => (∀ row ∈ r.1.out, row ∈ p.out ∨ row.info ∈ its) ∧ ∀ it ∈ r.2, it ∈ its)
      (fun _ _ => True)
  | [], p => Ensures.pure fun _ _ => ⟨fun _ => Or.inl, fun _ h => h⟩
  | it :: its, p => by
    unfold placeAll
    cases refs.lookup it.id with
    | none =>
      apply (fs.placeAll_rows refs its p).mono (fun _ h => h) ?_ fun _ _ h => h
      intro r _ h
      obtain ⟨hrows, hleft⟩ := h
      exact ⟨fun row hrow => (hrows row hrow).imp_right (List.mem_cons_of_mem _),
        fun i hi => List.mem_cons_of_mem _ (hleft i hi)⟩
    | some b =>
      dsimp only
      cases p.paths.lookup b.parent with
      | none =>
        apply (fs.placeAll_rows refs its p).bind
        intro r
        apply Ensures.pure
        intro _ h
        obtain ⟨hrows, hleft⟩ := h
        refine ⟨fun row hrow => (hrows row hrow).imp_right (List.mem_cons_of_mem _), fun i hi => ?_⟩
        rcases List.mem_cons.mp hi with rfl | hi
        · exact List.mem_cons_self
        · exact List.mem_cons_of_mem _ (hleft i hi)
      | some q =>
        apply Ensures.bind (Q := fun _ _ => True)
        · intro s _
          cases fs.pathInTree b.parent b.dirid s <;> trivial
        · intro dir
          apply (fs.placeAll_rows refs its _).mono (fun _ h => h) ?_ fun _ _ h => h
          intro r _ h
          obtain ⟨hrows, hleft⟩ := h
          refine ⟨fun row hrow => ?_, fun i hi => List.mem_cons_of_mem _ (hleft i hi)⟩
          rcases hrows row hrow with hout | hits
          · rcases List.mem_append.mp hout with hout | hnew
            · exact Or.inl hout
            · rw [List.mem_singleton.mp hnew]
              exact Or.inr List.mem_cons_self
          · exact Or.inr (List.mem_cons_of_mem _ hits)

/-- So do all passes. -/
theorem Fs.placePasses_rows (fs : Fs β) (refs : List (Nat × Backref)) : ∀ (n : Nat)
    (its : List RootInfo) (p : Placed), Ensures (fun _ => True) (fs.placePasses refs n its p)
      (fun p' _ => ∀ row ∈ p'.out, row ∈ p.out ∨ row.info ∈ its) (fun _ _ => True)
  | 0, _, _ => Ensures.pure fun _ _ _ => Or.inl
  | n + 1, its, p => by
    unfold placePasses
    split_ifs with hnil
    · exact Ensures.pure fun _ _ _ => Or.inl
    · apply (fs.placeAll_rows refs its p).bind
      rintro ⟨p', next⟩
      dsimp only
      split_ifs
      · exact Ensures.pure fun _ h => h.1
      · intro s hs
        have := fs.placePasses_rows refs n next p' s trivial
        cases hrun : fs.placePasses refs n next p' s with
        | error e s' => trivial
        | ok p'' s' =>
          rw [hrun] at this
          intro row hrow
          rcases this row hrow with hout | hnext
          · exact hs.1 row hout
          · exact Or.inr (hs.2 _ hnext)

section believed

variable {fs : Fs β} {I : FsState β → Prop} {v : Volume}

/-- Of the root items of the subvolumes those of one id are the tree's. -/
theorem Volume.filter_rootsOf (hoffset : ∀ x ∈ v.roots, x.1.offset ≤ U64_MAX) {id : Nat}
    (hle : FIRST_FREE_OBJECTID ≤ id) (hge : id ≤ LAST_FREE_OBJECTID) :
    (v.rootsOf ROOT_ITEM_KEY).filter (fun x => x.1.objectid = id) = v.rootItems id := by
  rw [rootsOf, rootItems, itemsOf, inRange, inRange, List.filter_filter, List.filter_filter]
  apply List.filter_congr
  intro x hx
  have hx := hoffset x hx
  have hty : ROOT_ITEM_KEY < 255 := by decide
  rw [← Bool.decide_and, ← Bool.decide_and, decide_eq_decide]
  simp only [Key.le_def]
  constructor
  · rintro ⟨⟨hid, hitem⟩, -⟩
    omega
  · rintro ⟨h₁, h₂⟩
    omega

theorem offset_le_of_stored (h : fs.StoresRoots I v) : ∀ x ∈ v.roots, x.1.offset ≤ U64_MAX := by
  obtain ⟨blocks, -, l, -, hT⟩ := h.roots
  exact hT.of_leaves fun _ _ => LeafAt.offset_le

/-- What a list of items is read as has the first of an id where the items have it. -/
theorem find?_rootInfos {l : List (Key × Bytes)} {is : List RootInfo}
    (h : List.Forall₂ (fun x i => rootInfoOf x = .ok i) l is) {id : Nat} {i : RootInfo}
    (hi : is.find? (fun i => i.id = id) = some i) :
    ∃ x, l.find? (fun x => x.1.objectid = id) = some x ∧ rootInfoOf x = .ok i := by
  induction h with
  | nil => exact nomatch hi
  | @cons x j l is hx _ ih =>
    have hid := rootInfoOf_ok hx
    by_cases hj : j.id = id
    · rw [List.find?_cons_of_pos (by simpa using hj)] at hi
      obtain rfl : j = i := Option.some.inj hi
      exact ⟨x, List.find?_cons_of_pos (by simpa [hid] using hj), hx⟩
    · rw [List.find?_cons_of_neg (by simpa using hj)] at hi
      rw [List.find?_cons_of_neg (by simpa [hid] using hj)]
      exact ih hi

/-- The ids of the root items of the subvolumes ascend. -/
theorem Volume.rootsOf_sorted (h : Ascending v.roots) (ty : Nat) :
    (v.rootsOf ty).Pairwise fun x y => x.1.objectid ≤ y.1.objectid := by
  have hasc : Ascending (v.rootsOf ty) := h.sublist (List.filter_sublist.trans List.filter_sublist)
  apply hasc.imp
  intro x y hlt
  rw [Key.lt_def] at hlt
  omega

/-- A row is made of the oldest root item of its id, and all of them can be read. -/
theorem Fs.StoresRoots.row_of_subvols (h : fs.StoresRoots I v) {s s' : FsState β} (hs : I s)
    {subs : List Subvol} (hrun : fs.subvols s = .ok subs s') {row : Subvol} (hrow : row ∈ subs) :
    (∃ x, v.Oldest row.id x ∧ rootInfoOf x = .ok row.info) ∧
    ∀ x ∈ v.rootItems row.id, ∃ i, rootInfoOf x = .ok i := by
  obtain ⟨⟨more, r⟩, s₁, hwalk, hrun⟩ := bind_ok_iff.mp hrun
  obtain ⟨p, s₂, hplace, hrun⟩ := bind_ok_iff.mp hrun
  obtain rfl : p.out.insertionSort bySubvolId = subs := (EStateM.Result.ok.inj hrun).1
  obtain ⟨q, hq, hfeed⟩ := h.walk_roots ⟨FIRST_FREE_OBJECTID, 0, 0⟩ ⟨LAST_FREE_OBJECTID, 255, U64_MAX⟩
    RootItems.visit ⟨[], []⟩
  obtain ⟨rfl, -⟩ := hq.ok_of_run hs hwalk
  have hfold := hfeed.trans
    (feed_foldlM (f := fun r x => (RootItems.visit x.1 x.2 r).map Prod.snd) visit_eq _ _)
  obtain ⟨its, hits, hitems⟩ := items_of_foldlM hfold.symm
  have hits : (v.rootsOf ROOT_ITEM_KEY).mapM rootInfoOf = .ok its := hits
  rw [show r.items = its from hitems] at hplace
  -- The row is one of an item that is first of its id.
  have hinfo : row.info ∈ dedupById none its := by
    have := (fs.placePasses_rows r.backrefs _ (dedupById none its) ⟨[(FS_TREE_OBJECTID, [])], []⟩).ok
      trivial hplace row ((List.mem_insertionSort _).mp hrow)
    exact this.resolve_left List.not_mem_nil
  have hsorted : its.Pairwise fun x y => x.id ≤ y.id := by
    have := List.pairwise_map.mpr (Volume.rootsOf_sorted h.ascending_roots ROOT_ITEM_KEY)
    rw [← ids_rootInfos hits] at this
    exact List.pairwise_map.mp this
  obtain ⟨-, hfind⟩ := find?_of_mem_dedupById hsorted (fun _ ha => absurd ha (Option.not_mem_none _)) hinfo
  obtain ⟨x, hx, hxi⟩ := find?_rootInfos (mapM_ok_iff.mp hits) hfind
  have hmem := List.mem_of_find?_eq_some hx
  have hid : x.1.objectid = row.info.id := by simpa using List.find?_some hx
  have hrange : FIRST_FREE_OBJECTID ≤ row.id ∧ row.id ≤ LAST_FREE_OBJECTID := by
    rw [show row.id = row.info.id from rfl, ← hid]
    rw [Volume.rootsOf, List.mem_filter, inRange, List.mem_filter] at hmem
    simp only [decide_eq_true_eq, Key.le_def] at hmem
    omega
  have hfilter := Volume.filter_rootsOf (offset_le_of_stored h) hrange.1 hrange.2
  constructor
  · refine ⟨x, (Volume.oldest_iff h.ascending_roots).mpr ?_, hxi⟩
    rw [← hfilter, List.head?_filter]
    exact hx
  · intro y hy
    rw [← hfilter] at hy
    obtain ⟨i, -, hi⟩ := exists_mem_mapM hits (List.mem_filter.mp hy).1
    exact ⟨i, hi⟩

/-- A row says what the root item says that the tree is read from. -/
def Fs.Believes (fs : Fs β) (I : FsState β → Prop) (v : Volume) (row : Subvol) : Prop :=
  Yields I (fs.isSnapshot row.id) (.ok row.snapshot) ∧
  ∃ x, v.Newest row.id x ∧
    Yields I (fs.tree row.id) (do
      return { bytenr := ← u64At x.2 176, rootDirid := ← u64At x.2 168 }) ∧
    u64At x.2 160 = .ok row.generation ∧
    ∃ flags, u64At x.2 208 = .ok flags ∧ row.readonly = decide (flags % 2 ≠ 0)

/-- It does where the newest root item says the same. -/
theorem Fs.StoresRoots.believes_iff (h : fs.StoresRoots I v) {s : FsState β} (hs : I s) {row : Subvol}
    {x : Key × Bytes} (hx : v.Newest row.id x) :
    fs.Believes I v row ↔ rootInfoOf x = .ok row.info := by
  have hsnap := h.isSnapshot row.id
  rw [Volume.isSnapshot_of_newest h.ascending_roots hx] at hsnap
  have htree := h.tree row.id
  have hlast := (Volume.newest_iff h.ascending_roots).mp hx
  rw [Volume.tree, Volume.rootItem, show itemsOf v.roots row.id ROOT_ITEM_KEY = v.rootItems row.id from rfl,
    hlast] at htree
  constructor
  · rintro ⟨hsnap', y, hy, -, hgen, flags, hflags, hro⟩
    have hlast' := (Volume.newest_iff h.ascending_roots).mp hy
    rw [hlast] at hlast'
    obtain rfl : x = y := Option.some.inj hlast'
    have hbit : snapshotBit x.2 = .ok row.snapshot := (hsnap.value hs).symm.trans (hsnap'.value hs)
    have hid : x.1.objectid = row.id := (mem_itemsOf.mp hx.1).2.1
    rw [rootInfoOf, hbit, hgen, hflags]
    show Except.ok (RootInfo.mk x.1.objectid row.generation (decide (flags % 2 ≠ 0)) row.snapshot) = _
    rw [← hro, hid]
    rfl
  · intro hinfo
    obtain ⟨snapshot, hbit, hinfo⟩ := except_bind_ok.mp hinfo
    obtain ⟨generation, hgen, hinfo⟩ := except_bind_ok.mp hinfo
    obtain ⟨flags, hflags, hinfo⟩ := except_bind_ok.mp hinfo
    have hrow := Except.ok.inj hinfo
    rw [Subvol.info, RootInfo.mk.injEq] at hrow
    obtain ⟨-, hg, hr, hb⟩ := hrow
    rw [hbit, hb] at hsnap
    exact ⟨hsnap, x, hx, htree, hg ▸ hgen, flags, hflags, hr.symm⟩

/-- A row of the listing says what the root item says that the tree is read from, where
the oldest root item of its id, which it is made of, says the same. -/
theorem Fs.subvols_believed_iff (h : fs.StoresRoots I v) {s s' : FsState β} (hs : I s)
    {subs : List Subvol} (hrun : fs.subvols s = .ok subs s') : ∀ row ∈ subs,
    (fs.Believes I v row ↔
      ∃ x y, v.Oldest row.id x ∧ v.Newest row.id y ∧ rootInfoOf x = rootInfoOf y) := by
  intro row hrow
  obtain ⟨⟨x, hx, hxi⟩, hall⟩ := h.row_of_subvols hs hrun hrow
  have hne : v.rootItems row.id ≠ [] := List.ne_nil_of_mem hx.1
  have hy : v.Newest row.id ((v.rootItems row.id).getLast hne) :=
    (Volume.newest_iff h.ascending_roots).mpr (List.getLast?_eq_some_getLast hne)
  rw [h.believes_iff hs hy, ← hxi]
  constructor
  · exact fun he => ⟨x, _, hx, hy, he.symm⟩
  · rintro ⟨x', y', hx', hy', he⟩
    have hxx' := (Volume.oldest_iff h.ascending_roots).mp hx
    rw [(Volume.oldest_iff h.ascending_roots).mp hx'] at hxx'
    have hyy' := (Volume.newest_iff h.ascending_roots).mp hy
    rw [(Volume.newest_iff h.ascending_roots).mp hy'] at hyy'
    rw [← Option.some.inj hxx', ← Option.some.inj hyy', he]

end believed

namespace Image

/-- A root item of generation 9 that is read-only and a snapshot's. -/
def snapshotItem (rootDirid bytenr : Nat) : Bytes :=
  zeros 160 ++ (Bytes.toLE 8 9 ++ (Bytes.toLE 8 rootDirid ++ (Bytes.toLE 8 bytenr ++ (zeros 24 ++
    (Bytes.toLE 8 1 ++ (zeros 47 ++ Bytes.toLE 16 1))))))

/-- Subvolume 256 was there before it was made again as a snapshot. -/
def twice : Volume where
  roots := [(⟨FS_TREE_OBJECTID, ROOT_ITEM_KEY, 0⟩, rootItem ROOT_DIR FS_TREE),
    (⟨FS_TREE_OBJECTID, ROOT_REF_KEY, 256⟩, []), (⟨256, ROOT_ITEM_KEY, 0⟩, rootItem ROOT_DIR DATA),
    (⟨256, ROOT_ITEM_KEY, 9⟩, snapshotItem ROOT_DIR DATA),
    (⟨256, ROOT_BACKREF_KEY, FS_TREE_OBJECTID⟩, rootBackref ROOT_DIR [0x73])]
  items id := if id = FS_TREE_OBJECTID then oneSubvol 256 [0x73]
    else [(⟨ROOT_DIR, INODE_ITEM_KEY, 0⟩, inodeItem 0 0o40755)]

def twiceLeaves : List (Nat × List (Key × Bytes)) :=
  [(ROOT_TREE, twice.roots), (FS_TREE, twice.items FS_TREE_OBJECTID), (DATA, twice.items 256)]

/-- Subvolume 256 was written again, where its tree had moved to. -/
def again : Volume :=
  { twice with
    roots := [(⟨FS_TREE_OBJECTID, ROOT_ITEM_KEY, 0⟩, rootItem ROOT_DIR FS_TREE),
      (⟨FS_TREE_OBJECTID, ROOT_REF_KEY, 256⟩, []), (⟨256, ROOT_ITEM_KEY, 0⟩, rootItem ROOT_DIR 0x15000),
      (⟨256, ROOT_ITEM_KEY, 9⟩, rootItem ROOT_DIR DATA),
      (⟨256, ROOT_BACKREF_KEY, FS_TREE_OBJECTID⟩, rootBackref ROOT_DIR [0x73])] }

def againLeaves : List (Nat × List (Key × Bytes)) :=
  [(ROOT_TREE, again.roots), (FS_TREE, again.items FS_TREE_OBJECTID), (DATA, again.items 256)]

/-- The trees of both can be written. -/
theorem ok_twice : ∀ x ∈ [(twice, twiceLeaves), (again, againLeaves)],
    x.2.lookup ROOT_TREE = some x.1.roots ∧
    (∀ r ∈ x.1.roots, r.1.ty = ROOT_REF_KEY → r.1.objectid ∈ [FS_TREE_OBJECTID, 256] →
      r.1.offset ∈ [FS_TREE_OBJECTID, 256]) ∧
    (∀ t ∈ [FS_TREE_OBJECTID, 256],
      Returns (x.1.tree t) fun r => x.2.lookup r.bytenr = some (x.1.items t)) ∧
    (∀ l ∈ x.2, SearchTree.Ascending l.2) ∧ (∀ l ∈ x.2, (leaf l.1 l.2).length < 2 ^ 32) ∧
    ∀ l ∈ x.2, ∀ y ∈ l.2, y.1.Fits := by
  decide +kernel

theorem stores_of_twice {v : Volume} {l : List (Nat × List (Key × Bytes))}
    (h : (v, l) ∈ [(twice, twiceLeaves), (again, againLeaves)]) : (fs []).Stores (Cached l v) v := by
  obtain ⟨hroot, hrefs, htrees, hasc, hlen, hfit⟩ := ok_twice _ h
  exact stores_leaves hroot (fun t => Volume.linked_of_closed (by decide) hrefs) htrees hasc hlen hfit

theorem stores_twice : (fs []).Stores (Cached twiceLeaves twice) twice :=
  stores_of_twice List.mem_cons_self

theorem stores_again : (fs []).Stores (Cached againLeaves again) again :=
  stores_of_twice (List.mem_cons_of_mem _ List.mem_cons_self)

end Image

open Image in
/-- The row of a subvolume with two root items that say the same. -/
theorem Fs.subvols_believed_again : ∃ subs s' row, (fs []).subvols (cachedLeaves againLeaves ()) =
      .ok subs s' ∧ row ∈ subs ∧ row.id = 256 ∧ (again.rootItems 256).length = 2 ∧
    (fs []).Believes (Cached againLeaves again) again row := by
  have hrun : Result.passes (fun subs _ => subs.any fun row => row.id = 256)
      ((fs []).subvols (cachedLeaves againLeaves ())) = true := by decide +kernel
  obtain ⟨subs, s', hrun, htest⟩ := Result.exists_of_passes hrun
  obtain ⟨row, hrow, hid⟩ := List.any_eq_true.mp htest
  have hid : row.id = 256 := of_decide_eq_true hid
  refine ⟨subs, s', row, hrun, hrow, hid, by decide +kernel, ?_⟩
  refine (Fs.subvols_believed_iff stores_again.storesRoots (cached_cachedLeaves ..) hrun row hrow).mpr ?_
  rw [hid]
  have htwo : again.rootItems 256 = [(⟨256, ROOT_ITEM_KEY, 0⟩, Image.rootItem ROOT_DIR 0x15000),
      (⟨256, ROOT_ITEM_KEY, 9⟩, Image.rootItem ROOT_DIR DATA)] := by
    decide +kernel
  have hold : again.Oldest 256 (⟨256, ROOT_ITEM_KEY, 0⟩, Image.rootItem ROOT_DIR 0x15000) :=
    (Volume.oldest_iff stores_again.storesRoots.ascending_roots).mpr (htwo ▸ rfl)
  have hnew : again.Newest 256 (⟨256, ROOT_ITEM_KEY, 9⟩, Image.rootItem ROOT_DIR DATA) :=
    (Volume.newest_iff stores_again.storesRoots.ascending_roots).mpr (htwo ▸ rfl)
  exact ⟨_, _, hold, hnew, by decide +kernel⟩

open Image in
/-- The row of a subvolume that was made again says what was true of the first. -/
theorem Fs.subvols_twice : ∃ subs s' row, (fs []).Stores (Cached twiceLeaves twice) twice ∧
    Cached twiceLeaves twice (cachedLeaves twiceLeaves ()) ∧
    (fs []).subvols (cachedLeaves twiceLeaves ()) = .ok subs s' ∧ row ∈ subs ∧
    row.id = 256 ∧ row.snapshot = false ∧ row.generation = 0 ∧ row.readonly = false ∧
    Yields (Cached twiceLeaves twice) ((fs []).isSnapshot 256) (.ok true) ∧
    ¬ (fs []).Believes (Cached twiceLeaves twice) twice row := by
  have hrun : Result.passes (fun subs _ => subs.any fun row => row.id = 256 ∧ row.snapshot = false ∧
      row.generation = 0 ∧ row.readonly = false)
      ((fs []).subvols (cachedLeaves twiceLeaves ())) = true := by decide +kernel
  obtain ⟨subs, s', hrun, htest⟩ := Result.exists_of_passes hrun
  obtain ⟨row, hrow, hall⟩ := List.any_eq_true.mp htest
  obtain ⟨hid, hsnap, hgen, hro⟩ := of_decide_eq_true hall
  have hcached : Cached twiceLeaves twice (cachedLeaves twiceLeaves ()) := cached_cachedLeaves ..
  have hyields := stores_twice.isSnapshot 256
  rw [show twice.isSnapshot 256 = .ok true by decide +kernel] at hyields
  refine ⟨subs, s', row, stores_twice, hcached, hrun, hrow, hid, hsnap, hgen, hro, hyields, ?_⟩
  rintro ⟨hbelieved, -⟩
  rw [hid, hsnap] at hbelieved
  exact absurd ((hyields.value hcached).symm.trans (hbelieved.value hcached)) (by simp)

end BtrfsPeek
