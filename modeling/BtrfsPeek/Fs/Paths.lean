import BtrfsPeek.Fs.WellFormed
import Mathlib.Data.List.DropRight

/-!
# Paths

A path is printed with `join` and read with `Fs.resolve`. On a well-formed
filesystem the path of a listed entry resolves to it (`Fs.resolve_join`), if
the name has no backslash: the reader takes one for a separator.
-/

namespace BtrfsPeek

open Effect

variable {β : Type}

/-- The path of an entry of the directory at `dir`. -/
def join (dir name : Text) : Text := dir.rdropWhile (· = '/') ++ '/' :: name

/-- A name that Linux allows. -/
def LegalName (t : Text) : Prop :=
  t ≠ [] ∧ '/' ∉ t ∧ '\x00' ∉ t ∧ t ≠ ['.'] ∧ t ≠ ['.', '.']

instance (t : Text) : Decidable (LegalName t) := inferInstanceAs (Decidable (_ ∧ _))

namespace Fs

/-! ## Components -/

theorem pathParts_nil : pathParts [] = [] := by simp [pathParts]

theorem pathParts_append (p q : Text) : pathParts (p ++ '/' :: q) = pathParts p ++ pathParts q := by
  rw [pathParts, List.splitOnP_append_cons _ _ (by simp), List.filter_append]
  rfl

/-- Separators at the end make no difference. -/
theorem pathParts_trim (p : Text) : pathParts (p.rdropWhile (· = '/')) = pathParts p := by
  induction p using List.reverseRecOn with
  | nil => rfl
  | append_singleton p c ih =>
    by_cases hc : c = '/'
    · subst hc
      rw [List.rdropWhile_concat_pos _ _ _ (by simp), ih, pathParts_append, pathParts_nil,
        List.append_nil]
    · rw [List.rdropWhile_concat_neg _ _ _ (by simpa using hc)]

theorem pathParts_name {t : Text} (h : LegalName t) (hb : '\\' ∉ t) : pathParts t = [t] := by
  obtain ⟨hne, hs, -, hdot, -⟩ := h
  have hsplit : t.splitOnP (fun c => c = '/' ∨ c = '\\') = [t] := by
    apply List.splitOnP_eq_singleton
    intro c hc
    rw [decide_eq_false_iff_not]
    rintro (rfl | rfl)
    · exact hs hc
    · exact hb hc
  rw [pathParts, hsplit, List.filter_cons_of_pos (by simp [hne, hdot]), List.filter_nil]

theorem pathParts_join {t : Text} (p : Text) (h : LegalName t) (hb : '\\' ∉ t) :
    pathParts (join p t) = pathParts p ++ [t] := by
  rw [join, pathParts_append, pathParts_trim, pathParts_name h hb]

/-! ## Walking down -/

variable {fs : Fs β} {I : FsState β → Prop} {v : Volume}

/-- A directory that a run went on from is one in every state. -/
theorem Stores.checkDir (h : fs.Stores I v) {dir : Loc} (hdir : v.Inside dir) {walked : Text}
    {s s' : FsState β} {u : Unit} (hs : I s) (hrun : fs.checkDir dir walked s = .ok u s') :
    Yields I (fs.checkDir dir walked) (.ok ()) := by
  unfold Fs.checkDir at hrun ⊢
  split_ifs at hrun ⊢ with hp
  · exact Yields.pure _
  · obtain ⟨i, s₁, hi, hrun⟩ := bind_ok_iff.mp hrun
    obtain ⟨hv, -⟩ := (h.inode hdir).ok_of_run hs hi
    have hy := h.inode hdir
    rw [hv] at hy
    apply hy.bind
    split_ifs at hrun ⊢ with hsym
    · obtain ⟨target, s₂, -, hrun⟩ := bind_ok_iff.mp hrun
      cases hrun
    · cases hd : i.isDir with
      | true => exact Yields.lift _
      | false =>
        rw [hd] at hrun
        cases hrun

/-- A path that resolved goes on as what comes after it does from there. -/
theorem Stores.resolveFrom_append (h : fs.Stores I v) {more : List Text} {d : Loc}
    {r : Except Error Loc}
    (hmore : v.Inside d → ∀ above walked, Yields I (fs.resolveFrom more d above walked) r) :
    ∀ {parts : List Text} {dir : Loc} {above : List Loc} {walked : Text} {s s' : FsState β},
      (∀ l ∈ dir :: above, v.Inside l) → I s →
      fs.resolveFrom parts dir above walked s = .ok d s' →
      Yields I (fs.resolveFrom (parts ++ more) dir above walked) r
  | [], dir, above, walked, s, s', hin, _, hrun => by
    cases hrun
    exact hmore (hin d List.mem_cons_self) above walked
  | part :: parts, dir, above, walked, s, s', hin, hs, hrun => by
    rw [List.cons_append]
    unfold resolveFrom at hrun ⊢
    split_ifs at hrun ⊢ with hup
    · cases above with
      | nil => exact h.resolveFrom_append hmore hin hs hrun
      | cons parent above =>
        exact h.resolveFrom_append hmore (fun l hl => hin l (List.mem_cons_of_mem _ hl)) hs hrun
    · have hdir : v.Inside dir := hin dir List.mem_cons_self
      obtain ⟨u, s₁, hc, hrun⟩ := bind_ok_iff.mp hrun
      have hcheck := h.checkDir hdir hs hc
      obtain ⟨-, hs₁⟩ := hcheck.ok_of_run hs hc
      obtain ⟨o, s₂, hl, hrun⟩ := bind_ok_iff.mp hrun
      have hlookup := h.lookup hdir (Utf8.toUtf8 part)
      obtain ⟨hv, hs₂⟩ := hlookup.ok_of_run hs₁ hl
      rw [hv] at hlookup
      apply hcheck.bind
      apply hlookup.bind
      cases o with
      | none => cases hrun
      | some e =>
        refine h.resolveFrom_append hmore ?_ hs₂ hrun
        intro l hl'
        rcases List.mem_cons.mp hl' with rfl | hl'
        · exact Volume.Inside.of_lookup hdir hv
        · exact hin l hl'

/-- A directory is one to go on from. -/
theorem Stores.checkDir_of_isDir (h : fs.Stores I v) {dir : Loc} (hdir : v.Inside dir) {i : Inode}
    (hi : v.inode dir = .ok i) (hd : i.isDir = true) (walked : Text) :
    Yields I (fs.checkDir dir walked) (.ok ()) := by
  unfold Fs.checkDir
  split_ifs with hp
  · exact Yields.pure _
  · have hy := h.inode hdir
    rw [hi] at hy
    apply hy.bind
    rw [Inode.not_isSymlink_of_isDir hd, hd]
    exact Yields.lift _

/-- One component that is looked up. -/
theorem Stores.resolveFrom_cons (h : fs.Stores I v) {dir : Loc} (hdir : v.Inside dir) {part : Text}
    (hup : part ≠ ['.', '.']) {walked : Text} (hcheck : Yields I (fs.checkDir dir walked) (.ok ()))
    {e : Entry} (hl : v.lookup fs.crates dir (Utf8.toUtf8 part) = .ok (some e)) {parts : List Text}
    {above : List Loc} {r : Except Error Loc}
    (hrest : Yields I (fs.resolveFrom parts e.loc (dir :: above) (walked ++ '/' :: part)) r) :
    Yields I (fs.resolveFrom (part :: parts) dir above walked) r := by
  have hlookup := h.lookup hdir (Utf8.toUtf8 part)
  rw [hl] at hlookup
  unfold resolveFrom
  rw [if_neg hup]
  exact hcheck.bind (hlookup.bind hrest)

/-- The path of an entry that is listed resolves to the entry, unless there is a
backslash in its name. -/
theorem resolve_join (h : fs.Stores I v) (hw : v.WellFormed fs.crates) {p t : Text} {d : Loc}
    {es : List Entry} {e : Entry} {s s' s'' : FsState β} (hs : I s) (hs' : I s') (hs'' : I s'')
    (hp : Result.value (fs.resolve p s) = .ok d) (hd : Result.value (fs.readdir d s') = .ok es)
    (he : e ∈ es) (ht : e.name = Utf8.toUtf8 t) (hlegal : LegalName t) (hback : '\\' ∉ t) :
    Result.value (fs.resolve (join p e.nameLossy) s'') = .ok e.loc := by
  have hname : e.nameLossy = t := by rw [Entry.nameLossy, ht, Utf8.fromUtf8Lossy_toUtf8]
  obtain ⟨s₂, hrun⟩ : ∃ s₂, fs.resolve p s = .ok d s₂ := by
    cases hr : fs.resolve p s with
    | ok d' s₂ =>
      rw [hr] at hp
      cases hp
      exact ⟨s₂, rfl⟩
    | error e s₂ => rw [hr] at hp; cases hp
  obtain ⟨r, s₁, hroot, hrun⟩ := bind_ok_iff.mp hrun
  obtain ⟨hv, hs₁⟩ := h.root.ok_of_run hs hroot
  have hr : v.Inside r := Volume.inside_root hv
  -- The last component is looked up where the others lead.
  have hlast : v.Inside d → ∀ above walked, Yields I (fs.resolveFrom [t] d above walked) (.ok e.loc) := by
    intro hin above walked
    have hlist : v.readdir d = .ok es := ((h.readdir hin).value hs').symm.trans hd
    obtain ⟨hnp, raw, hraw, ent, hent, hentry⟩ := Volume.mem_readdir hlist he
    have htree := hw.tree d.tree (hin hnp)
    have hlookup := htree.lookup_of_index hnp hraw hent hentry
    rw [← Volume.entry_name hentry, ht] at hlookup
    obtain ⟨i, hi, hdir⟩ := returns_iff.mp (htree.dirOk hraw hent).isDir
    exact h.resolveFrom_cons hin hlegal.2.2.2.2 (h.checkDir_of_isDir hin hi hdir walked) hlookup
      (Yields.pure _)
  have hwhole : Yields I (fs.resolve (join p t)) (.ok e.loc) := by
    have hroot' := h.root
    rw [hv] at hroot'
    apply hroot'.bind
    rw [pathParts_join p hlegal hback]
    exact h.resolveFrom_append hlast (by simpa using hr) hs₁ hrun
  rw [hname]
  exact hwhole.value hs''

end Fs

namespace Image

/-- The root tree of an image of one subvolume. -/
def rootTree : List (Key × Bytes) :=
  [(⟨FS_TREE_OBJECTID, ROOT_ITEM_KEY, 0⟩, rootItem ROOT_DIR FS_TREE)]

/-- A filesystem whose one subvolume holds `items`. -/
def volume (items : List (Key × Bytes)) : Volume := ⟨rootTree, fun _ => items⟩

def volumeLeaves (items : List (Key × Bytes)) : List (Nat × List (Key × Bytes)) :=
  [(ROOT_TREE, rootTree), (FS_TREE, items)]

theorem ok_rootTree : (volume []).tree FS_TREE_OBJECTID = .ok ⟨FS_TREE, ROOT_DIR⟩ ∧
    (itemsOf rootTree 0 ROOT_ITEM_KEY).getLast?.map Prod.snd = none ∧
    SearchTree.Ascending rootTree ∧ (leaf ROOT_TREE rootTree).length < 2 ^ 32 ∧
    ∀ y ∈ rootTree, y.1.Fits := by
  decide +kernel

theorem tree_volume (items : List (Key × Bytes)) :
    (volume items).tree FS_TREE_OBJECTID = .ok ⟨FS_TREE, ROOT_DIR⟩ :=
  (Volume.tree_congr (show (volume items).roots = (volume []).roots from rfl) _).trans ok_rootTree.1

theorem linked_volume {items : List (Key × Bytes)} {t : Nat} (h : (volume items).Linked t) :
    t ∈ [FS_TREE_OBJECTID] :=
  Volume.linked_of_closed List.mem_cons_self
    (by simp [volume, rootTree, ROOT_ITEM_KEY, ROOT_REF_KEY]) h

theorem wellFormed_volume {items : List (Key × Bytes)}
    (h : (volume items).TreeOk crates FS_TREE_OBJECTID) : (volume items).WellFormed crates := by
  constructor
  · intro t ht
    rw [List.mem_singleton.mp (linked_volume ht)]
    exact h
  · exact ok_rootTree.2.1

theorem stores_volume {items : List (Key × Bytes)} (hasc : SearchTree.Ascending items)
    (hlen : (leaf FS_TREE items).length < 2 ^ 32) (hfit : ∀ y ∈ items, y.1.Fits) :
    (fs []).Stores (Cached (volumeLeaves items) (volume items)) (volume items) := by
  obtain ⟨-, -, hroot⟩ := ok_rootTree
  have hlookup : (volumeLeaves items).lookup (fs []).sb.root = some (volume items).roots := by
    show (volumeLeaves items).lookup ROOT_TREE = some rootTree
    exact List.lookup_cons_self
  have hfs : (volumeLeaves items).lookup FS_TREE = some items := by
    rw [volumeLeaves, List.lookup_cons, show (FS_TREE == ROOT_TREE) = false by decide]
    exact List.lookup_cons_self
  apply stores_leaves hlookup fun t => linked_volume
  · intro t ht
    rw [List.mem_singleton.mp ht, tree_volume]
    exact hfs
  all_goals
    intro x hx
    rcases List.mem_cons.mp hx with rfl | hx
    rotate_left
    obtain rfl := List.mem_singleton.mp hx
    rotate_left
  · exact hroot.1
  · exact hasc
  · exact hroot.2.1
  · exact hlen
  · exact hroot.2.2
  · exact hfit

/-- A directory of one file. -/
def oneFile (name : Bytes) : List (Key × Bytes) :=
  [(⟨ROOT_DIR, INODE_ITEM_KEY, 0⟩, inodeItem 0 0o40755),
    (⟨ROOT_DIR, DIR_ITEM_KEY, nameHash crates name⟩, dirItem 257 1 name),
    (⟨ROOT_DIR, DIR_INDEX_KEY, 2⟩, dirItem 257 1 name),
    (⟨257, INODE_ITEM_KEY, 0⟩, inodeItem 0 0o100644)]

/-- The state in which its blocks are cached. -/
def oneFileState (name : Bytes) : FsState Unit := cachedLeaves (volumeLeaves (oneFile name)) ()

end Image

open Image in
/-- A name with a space. -/
theorem Fs.resolve_join_space :
    Result.value ((fs []).resolve (join ['/'] ['a', ' ', 'b']) (oneFileState [0x61, 0x20, 0x62])) =
      .ok ⟨FS_TREE_OBJECTID, 257⟩ := by
  have hw := wellFormed_volume (show (volume (oneFile [0x61, 0x20, 0x62])).TreeOk _ _ by decide +kernel)
  have hst := stores_volume (show SearchTree.Ascending (oneFile [0x61, 0x20, 0x62]) by decide +kernel)
    (by decide +kernel) (by decide +kernel)
  have hs := cached_cachedLeaves (volumeLeaves (oneFile [0x61, 0x20, 0x62]))
    (volume (oneFile [0x61, 0x20, 0x62])) ()
  have hroot : Result.value ((fs []).resolve ['/'] (oneFileState [0x61, 0x20, 0x62])) =
    .ok ⟨FS_TREE_OBJECTID, ROOT_DIR⟩ := by decide +kernel
  have hdir : Result.value ((fs []).readdir ⟨FS_TREE_OBJECTID, ROOT_DIR⟩
      (oneFileState [0x61, 0x20, 0x62])) =
    .ok [⟨[0x61, 0x20, 0x62], ⟨FS_TREE_OBJECTID, 257⟩, 1, false⟩] := by decide +kernel
  have hname : (⟨[0x61, 0x20, 0x62], ⟨FS_TREE_OBJECTID, 257⟩, 1, false⟩ : Entry).nameLossy =
    ['a', ' ', 'b'] := by decide +kernel
  rw [← hname]
  exact Fs.resolve_join hst hw hs hs hs hroot hdir List.mem_cons_self
    (show _ = Utf8.toUtf8 ['a', ' ', 'b'] by decide) (by decide) (by decide)

open Image in
/-- A name with a backslash is taken for two. -/
theorem Fs.resolve_join_backslash : ∃ (v : Volume) (I : FsState Unit → Prop) (s : FsState Unit)
    (d : Loc) (e : Entry), (fs []).Stores I v ∧ v.WellFormed Image.crates ∧ I s ∧
    Result.value ((fs []).resolve ['/'] s) = .ok d ∧ Result.value ((fs []).readdir d s) = .ok [e] ∧
    e.name = Utf8.toUtf8 ['a', '\\', 'b'] ∧ LegalName ['a', '\\', 'b'] ∧
    Result.value ((fs []).resolve (join ['/'] e.nameLossy) s) = .error (.notFound "/a") := by
  refine ⟨volume (oneFile [0x61, 0x5C, 0x62]), _, oneFileState [0x61, 0x5C, 0x62],
    ⟨FS_TREE_OBJECTID, ROOT_DIR⟩, ⟨[0x61, 0x5C, 0x62], ⟨FS_TREE_OBJECTID, 257⟩, 1, false⟩,
    stores_volume ?_ ?_ ?_, wellFormed_volume ?_, cached_cachedLeaves _ _ _, ?_⟩
  all_goals decide +kernel

end BtrfsPeek
