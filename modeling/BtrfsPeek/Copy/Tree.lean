import BtrfsPeek.Fs.Reach

/-!
# The directory tree

The tree of directories below one of a volume: what is under it (`Volume.Under`),
its entries down to a depth, each with its path (`Volume.below`), and the
directories at a depth (`Volume.dirsAt`), where other subvolumes may be left out.
Both walkers, of `find` and of `cp`, are compared with these.
-/

namespace BtrfsPeek

open Effect

/-- Which other subvolumes are not descended into. -/
structure Skips where
  oneSubvolume : Bool
  noSnapshots : Bool
  deriving DecidableEq, Repr

namespace Volume

variable (v : Volume)

/-- The entries of a directory. -/
def entries (dir : Loc) : List Entry :=
  match v.readdir dir with
  | .ok es => es
  | .error _ => []

/-- What is reached from a directory. -/
inductive Under (a : Loc) : Loc → Prop
  | refl : Under a a
  | entry {d : Loc} {e : Entry} : Under a d → e ∈ v.entries d → e.ftype = FT_DIR → Under a e.loc

/-- No directory is inside itself, and there is an end to them. -/
def Acyclic (a : Loc) : Prop :=
  ∃ rank : Loc → Nat, ∀ d, v.Under a d → ∀ e ∈ v.entries d, e.ftype = FT_DIR → rank e.loc < rank d

def skips (k : Skips) (e : Entry) : Bool :=
  e.subvol && decide (¬ Fs.isPlaceholder e.loc) &&
    (k.oneSubvolume || (k.noSnapshots && decide (v.isSnapshot e.loc.tree = .ok true)))

/-- Whether an entry is a directory that is gone into. -/
def descends (k : Skips) (e : Entry) : Bool := decide (e.ftype = FT_DIR) && !v.skips k e

/-- The entries of the directories less than `n` below `dir`, with their paths and
the directories they are in. -/
def below (k : Skips) : (n : Nat) → (dir : Loc) → List (List Bytes × Loc × Entry)
  | 0, _ => []
  | n + 1, dir => (v.entries dir).flatMap fun e =>
    ([e.name], dir, e) ::
      if v.descends k e then (below k n e.loc).map fun x => (e.name :: x.1, x.2) else []

/-- The directories `n` below `dir`. -/
def dirsAt (k : Skips) : (n : Nat) → (dir : Loc) → List (List Bytes × Loc)
  | 0, dir => [([], dir)]
  | n + 1, dir => (v.entries dir).flatMap fun e =>
    if v.descends k e then (dirsAt k n e.loc).map fun x => (e.name :: x.1, x.2) else []

variable {v} {X : Crates} {k : Skips} {a d : Loc} {e : Entry}

theorem Under.trans {b : Loc} (h : v.Under a b) (h' : v.Under b d) : v.Under a d := by
  induction h' with
  | refl => exact h
  | entry _ he hty ih => exact .entry ih he hty

theorem entries_placeholder (h : Fs.isPlaceholder d) : v.entries d = [] := by
  rw [entries, readdir, if_pos h]
  rfl

theorem mem_entries (he : e ∈ v.entries d) : ∃ es, v.readdir d = .ok es ∧ e ∈ es := by
  unfold entries at he
  cases hr : v.readdir d with
  | error err => rw [hr] at he; exact absurd he List.not_mem_nil
  | ok es => rw [hr] at he; exact ⟨es, rfl, he⟩

/-- What is under the root is inside. -/
theorem inside_of_under {r : Loc} (hr : v.root = .ok r) (h : v.Under r d) : v.Inside d := by
  induction h with
  | refl => exact inside_root hr
  | entry _ he _ ih =>
    obtain ⟨es, hes, he⟩ := mem_entries he
    obtain ⟨hp, raw, -, d, -, hde⟩ := mem_readdir hes he
    exact .of_entry (ih hp) hde

/-- A directory lists its entries. -/
theorem readdir_eq (hw : v.WellFormed X) (hd : v.Inside d) : v.readdir d = .ok (v.entries d) := by
  by_cases hp : Fs.isPlaceholder d
  · rw [entries_placeholder hp, readdir, if_pos hp]
    rfl
  · obtain ⟨es, hes⟩ := readdir_ok hw (hd hp)
    rw [entries, hes]

/-! ## What an entry leads to -/

/-- An entry leads to an inode, which is a directory if the entry says so. -/
theorem inode_of_entry (hw : v.WellFormed X) (hd : v.Inside d) (he : e ∈ v.entries d) :
    ∃ i, v.inode e.loc = .ok i ∧ (e.ftype = FT_DIR ↔ i.isDir = true) := by
  obtain ⟨es, hes, he⟩ := mem_entries he
  obtain ⟨hp, raw, hraw, x, hx, hxe⟩ := mem_readdir hes he
  have hleads := ((hw.tree _ (hd hp)).dirOk hraw hx).leads
  rw [hraw] at hleads
  unfold entry at hxe
  split_ifs at hxe with hty href
  · cases hxe
    rcases hleads x hx with ⟨-, hi⟩ | hroot
    · obtain ⟨i, hi, hagree⟩ := returns_iff.mp hi
      exact ⟨i, hi, hagree.1⟩
    · exact absurd hroot hty
  · obtain ⟨r, hr, hxe⟩ := except_bind_ok.mp hxe
    cases hxe
    obtain ⟨r', hr', hi⟩ := returns_iff.mp (hw.tree _ (.nested (hd hp) href)).root
    rw [hr] at hr'
    cases hr'
    obtain ⟨i, hi, hdir⟩ := returns_iff.mp hi
    exact ⟨i, hi, iff_of_true rfl hdir⟩
  · cases hxe
    refine ⟨Fs.placeholderInode, ?_, iff_of_true rfl (by decide)⟩
    rw [inode, if_pos (show Fs.isPlaceholder ⟨0, 0⟩ from rfl)]
    rfl

/-- An entry of another subvolume is to the root of its tree. -/
theorem root_of_subvol (he : e ∈ v.entries d) (hs : e.subvol = true)
    (hp : ¬ Fs.isPlaceholder e.loc) : ∃ r, v.tree e.loc.tree = .ok r ∧ e.loc.ino = r.rootDirid := by
  obtain ⟨es, hes, he⟩ := mem_entries he
  obtain ⟨-, raw, -, x, -, hxe⟩ := mem_readdir hes he
  unfold entry at hxe
  split_ifs at hxe with hty href
  · cases hxe
    cases hs
  · obtain ⟨r, hr, hxe⟩ := except_bind_ok.mp hxe
    cases hxe
    exact ⟨r, hr, rfl⟩
  · cases hxe
    exact absurd rfl hp

/-- An entry that is no subvolume stays in the tree. -/
theorem tree_of_not_subvol (he : e ∈ v.entries d) (hs : e.subvol = false) :
    e.loc.tree = d.tree := by
  obtain ⟨es, hes, he⟩ := mem_entries he
  obtain ⟨-, raw, -, x, -, hxe⟩ := mem_readdir hes he
  unfold entry at hxe
  split_ifs at hxe with hty href
  · cases hxe
    rfl
  · obtain ⟨r, hr, hxe⟩ := except_bind_ok.mp hxe
    cases hxe
    cases hs
  · cases hxe
    cases hs

/-- An entry of another subvolume is a directory. -/
theorem ftype_of_subvol (he : e ∈ v.entries d) (hs : e.subvol = true) : e.ftype = FT_DIR := by
  obtain ⟨es, hes, he⟩ := mem_entries he
  obtain ⟨-, raw, -, x, -, hxe⟩ := mem_readdir hes he
  unfold entry at hxe
  split_ifs at hxe with hty href
  · cases hxe
    cases hs
  · obtain ⟨r, hr, hxe⟩ := except_bind_ok.mp hxe
    cases hxe
    rfl
  · cases hxe
    rfl

/-- What is under the root of the filesystem is under the root of its own tree. -/
theorem under_tree_root {r : Loc} (hr : v.root = .ok r) (h : v.Under r d)
    (hp : ¬ Fs.isPlaceholder d) : ∃ t, v.tree d.tree = .ok t ∧ v.Under ⟨d.tree, t.rootDirid⟩ d := by
  induction h with
  | refl =>
    obtain ⟨t, ht, hr⟩ := except_bind_ok.mp hr
    cases hr
    exact ⟨t, ht, .refl⟩
  | @entry d e hd he hty ih =>
    by_cases hs : e.subvol = true
    · obtain ⟨t, ht, hino⟩ := root_of_subvol he hs hp
      refine ⟨t, ht, ?_⟩
      rw [← hino]
      exact .refl
    · have htree := tree_of_not_subvol he (by simpa using hs)
      have hpd : ¬ Fs.isPlaceholder d := by
        intro hpd
        rw [entries_placeholder hpd] at he
        exact absurd he List.not_mem_nil
      obtain ⟨t, ht, hu⟩ := ih hpd
      rw [htree]
      exact ⟨t, ht, .entry hu he hty⟩

theorem Under.rank_le {rank : Loc → Nat}
    (h : ∀ d, v.Under a d → ∀ e ∈ v.entries d, e.ftype = FT_DIR → rank e.loc < rank d) {b : Loc}
    (hb : v.Under a b) (hd : v.Under b d) : rank d ≤ rank b := by
  induction hd with
  | refl => exact Nat.le_refl _
  | entry hd he hty ih => exact (Nat.le_of_lt (h _ (hb.trans hd) _ he hty)).trans ih

/-- Below the root, no entry leads to the root of the tree it is in. -/
theorem tree_ne_of_subvol {r : Loc} (hr : v.root = .ok r) (ha : v.Under r a) (hac : v.Acyclic a)
    (hd : v.Under a d) (he : e ∈ v.entries d) (hty : e.ftype = FT_DIR) (hs : e.subvol = true)
    (hp : ¬ Fs.isPlaceholder e.loc) : e.loc.tree ≠ d.tree := by
  intro htree
  obtain ⟨rank, hrank⟩ := hac
  have hpd : ¬ Fs.isPlaceholder d := by
    intro hpd
    rw [entries_placeholder hpd] at he
    exact absurd he List.not_mem_nil
  -- The entry would lead to the root that its directory is under.
  obtain ⟨t, ht, hino⟩ := root_of_subvol he hs hp
  obtain ⟨t', ht', hu⟩ := under_tree_root hr (ha.trans hd) hpd
  rw [← htree, ht] at ht'
  cases ht'
  rw [← htree, ← hino] at hu
  have hlt := hrank d hd e he hty
  have hle := Under.rank_le hrank (.entry hd he hty) hu
  omega

/-! ## Paths -/

theorem names_mapM {raw : List DirEntry} {out : List Entry}
    (h : raw.mapM (v.entry d) = .ok out) : out.map Entry.name = raw.map DirEntry.name := by
  induction mapM_ok_iff.mp h with
  | nil => rfl
  | cons hx hl ih => rw [List.map_cons, List.map_cons, ih (mapM_ok_iff.mpr hl), entry_name hx]

theorem names_entries (hw : v.WellFormed X) (hd : v.Inside d) :
    ((v.entries d).map Entry.name).Nodup := by
  unfold entries
  cases hr : v.readdir d with
  | error err => exact List.nodup_nil
  | ok es =>
    unfold readdir at hr
    split_ifs at hr with hp
    · cases hr
      exact List.nodup_nil
    · obtain ⟨-, -, hr⟩ := except_bind_ok.mp hr
      obtain ⟨raw, hraw, hr⟩ := except_bind_ok.mp hr
      obtain ⟨out, hout, hr⟩ := except_bind_ok.mp hr
      cases hr
      rw [((List.perm_insertionSort byName out).map Entry.name).nodup_iff, names_mapM hout]
      cases raw with
      | nil => exact List.nodup_nil
      | cons x raw =>
        have h := ((hw.tree _ (hd hp)).dirOk hraw List.mem_cons_self).names
        rw [hraw] at h
        exact h

/-- Each entry has its own path. -/
theorem nodup_below (hw : v.WellFormed X) (k : Skips) : ∀ (n : Nat) {d : Loc}, v.Inside d →
    ((v.below k n d).map Prod.fst).Nodup
  | 0, _, _ => List.nodup_nil
  | n + 1, d, hd => by
    rw [below, List.map_flatMap, List.nodup_flatMap]
    constructor
    · intro e he
      obtain ⟨es, hes, hmem⟩ := mem_entries he
      rw [List.map_cons, List.nodup_cons]
      split_ifs with hdesc
      · have hin : v.Inside e.loc := (present_listed hw hd hes hmem).inside
        have ih : ((v.below k n e.loc).map fun x => e.name :: x.1).Nodup := by
          have := (nodup_below hw k n hin).map (List.cons_injective (a := e.name))
          rwa [List.map_map] at this
        rw [List.map_map]
        refine ⟨?_, ih⟩
        intro h
        obtain ⟨x, hx, hnil⟩ := List.mem_map.mp h
        cases n with
        | zero => exact absurd hx List.not_mem_nil
        | succ n =>
          obtain ⟨e', -, hx⟩ := List.mem_flatMap.mp hx
          have hne : x.1 = [] := (List.cons.inj hnil).2
          rcases List.mem_cons.mp hx with rfl | hx
          · cases hne
          · split_ifs at hx
            · obtain ⟨y, -, rfl⟩ := List.mem_map.mp hx
              cases hne
            · exact absurd hx List.not_mem_nil
      · exact ⟨List.not_mem_nil, List.nodup_nil⟩
    · have hhead : ∀ e, ∀ p ∈ ((([e.name], d, e) : List Bytes × Loc × Entry) ::
          if v.descends k e then (v.below k n e.loc).map fun x => (e.name :: x.1, x.2)
          else []).map Prod.fst, p.head? = some e.name := by
        intro e p hp
        obtain ⟨x, hx, rfl⟩ := List.mem_map.mp hp
        rcases List.mem_cons.mp hx with rfl | hx
        · rfl
        · split_ifs at hx
          · obtain ⟨y, -, rfl⟩ := List.mem_map.mp hx
            rfl
          · exact absurd hx List.not_mem_nil
      have hnames := List.pairwise_map.mp (names_entries hw hd)
      refine hnames.imp fun {e e'} hne => ?_
      intro p hp hp'
      have h := (hhead e p hp).symm.trans (hhead e' p hp')
      exact hne (Option.some.inj h)

/-- Where no directories are `n` below, no entries are more than `n` below. -/
theorem below_of_dirsAt (k : Skips) : ∀ {n m : Nat} {d : Loc}, v.dirsAt k n d = [] → n ≤ m →
    v.below k m d = v.below k n d
  | 0, _, _, h, _ => by cases h
  | n + 1, 0, _, _, hm => by omega
  | n + 1, m + 1, d, h, hm => by
    rw [below, below]
    have hnil := List.flatMap_eq_nil_iff.mp h
    apply List.flatMap_congr
    intro e he
    have he := hnil e he
    by_cases hdesc : v.descends k e = true
    · rw [if_pos hdesc] at he
      rw [if_pos hdesc, if_pos hdesc,
        below_of_dirsAt k (List.map_eq_nil_iff.mp he) (Nat.le_of_succ_le_succ hm)]
    · rw [if_neg hdesc, if_neg hdesc]

end Volume

end BtrfsPeek
