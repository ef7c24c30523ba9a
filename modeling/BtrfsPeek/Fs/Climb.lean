import BtrfsPeek.Fs.Paths
import Mathlib.Data.Fintype.Defs

/-!
# Paths inside a tree

`Fs.pathInTree` climbs from an inode by its INODE_REFs. Where these match the
entries they name (`Volume.RefsOk`), what it climbs is what a path is followed
down again (`Fs.Stores.reaches_climb`).
-/

namespace BtrfsPeek

open Effect SearchTree

variable {β : Type}

/-- A name that is text, and is one component of a path. -/
def PlainName (t : Text) : Prop := LegalName t ∧ '\\' ∉ t

instance (t : Text) : Decidable (PlainName t) := inferInstanceAs (Decidable (_ ∧ _))

/-- The directory and the name of an INODE_REF. -/
def inodeRefOf (x : Key × Bytes) : Except Error (Nat × Text) := do
  let len ← u16At x.2 8
  return (x.1.offset, Utf8.fromUtf8Lossy (← bytes x.2 10 len))

namespace Volume

variable (v : Volume)

/-- The first parent reference of an inode. -/
def parentRef (tree ino : Nat) : Except Error (Option (Nat × Text)) :=
  match (itemsOf (v.items tree) ino INODE_REF_KEY).head? with
  | none => pure none
  | some x => (inodeRefOf x).map some

def climb (tree : Nat) (root : TreeRoot) :
    (left : Nat) → (ino : Nat) → (parts : List Text) → Except Error (List Text)
  | 0, ino, parts =>
    if ino = root.rootDirid then pure parts
    else throw (.msg s!"inode {ino} in tree {tree}: the parent chain never reaches the subvolume root")
  | left + 1, ino, parts =>
    if ino = root.rootDirid then pure parts
    else do
      match ← v.parentRef tree ino with
      | none => throw (.msg s!"inode {ino} in tree {tree} has no parent reference")
      | some (parent, name) => climb tree root left parent (name :: parts)

def pathInTree (tree ino : Nat) : Except Error Text := do
  let root ← v.tree tree
  let parts ← v.climb tree root Fs.MAX_PARTS ino []
  pure (joinPath parts)

/-- The references of a tree: an INODE_REF of any inode but the root names an entry
that leads to it, directories are nested less than 4096 deep, and names are
plain. -/
structure RefsOk (v : Volume) (t : Nat) : Prop where
  refs : Returns (v.tree t) fun r => ∀ x ∈ v.items t, x.1.ty = INODE_REF_KEY →
    x.1.objectid ≠ r.rootDirid → Returns (inodeRefOf x) fun p => Returns (v.index ⟨t, p.1⟩) fun es =>
      ∃ d ∈ es, d.name = Utf8.toUtf8 p.2 ∧ d.location.ty = INODE_ITEM_KEY ∧
        d.location.objectid = x.1.objectid
  depth : Returns (v.tree t) fun r => ∀ x ∈ v.items t, x.1.ty = DIR_INDEX_KEY →
    Returns (v.climb t r (Fs.MAX_PARTS - 1) x.1.objectid []) fun _ => True
  names : ∀ x ∈ v.items t, x.1.ty = DIR_INDEX_KEY → Returns (parseDirEntries x.2) fun es =>
    ∀ e ∈ es, ∃ n, Utf8.fromUtf8 e.name = some n ∧ PlainName n

instance (b : Bytes) : Decidable (∃ n, Utf8.fromUtf8 b = some n ∧ PlainName n) :=
  match Utf8.fromUtf8 b with
  | none => isFalse fun ⟨_, hn, _⟩ => nomatch hn
  | some n => decidable_of_iff (PlainName n)
    ⟨fun hp => ⟨n, rfl, hp⟩, fun ⟨_, hn, hp⟩ => Option.some.inj hn ▸ hp⟩

instance (v : Volume) (t : Nat) : Decidable (RefsOk v t) :=
  decidable_of_iff (_ ∧ _ ∧ _)
    ⟨fun ⟨h₁, h₂, h₃⟩ => ⟨h₁, h₂, h₃⟩, fun ⟨h₁, h₂, h₃⟩ => ⟨h₁, h₂, h₃⟩⟩

/-- The items of one type of the subvolumes. -/
def rootsOf (ty : Nat) : List (Key × Bytes) :=
  (inRange ⟨FIRST_FREE_OBJECTID, 0, 0⟩ ⟨LAST_FREE_OBJECTID, 255, U64_MAX⟩ v.roots).filter
    fun x => x.1.ty = ty

end Volume

namespace Fs.Stores

variable {fs : Fs β} {I : FsState β → Prop} {v : Volume}

theorem parentRef (h : fs.Stores I v) {id : Nat} (hid : v.Linked id) {r : TreeRoot}
    (hr : v.tree id = .ok r) (ino : Nat) : Yields I (fs.parentRef r ino) (v.parentRef id ino) := by
  rw [← bind_pure (v.parentRef id ino)]
  refine walk_seq (h.walk_items hid hr ..) ?_ fun found _ => Yields.pure found
  rw [Volume.parentRef, itemsOf]
  cases inRange (⟨ino, INODE_REF_KEY, 0⟩ : Key) ⟨ino, INODE_REF_KEY, U64_MAX⟩ (v.items id) with
  | nil => rfl
  | cons x rest =>
    obtain ⟨k, d⟩ := x
    rw [feed, List.head?_cons]
    simp only [inodeRefOf]
    cases u16At d 8 with
    | error e => rfl
    | ok len =>
      simp only [bind, Except.bind]
      cases bytes d 10 len <;> rfl

theorem climb (h : fs.Stores I v) {id : Nat} (hid : v.Linked id) {r : TreeRoot}
    (hr : v.tree id = .ok r) : ∀ (left ino : Nat) (parts : List Text),
      Yields I (fs.climb id r left ino parts) (v.climb id r left ino parts)
  | 0, ino, parts => by
    rw [Fs.climb, Volume.climb]
    split_ifs
    · exact Yields.pure _
    · exact Yields.throw _
  | left + 1, ino, parts => by
    rw [Fs.climb, Volume.climb]
    split_ifs
    · exact Yields.pure _
    · apply (h.parentRef hid hr ino).seq
      intro o _
      cases o with
      | none => exact Yields.throw _
      | some p => exact h.climb hid hr left p.1 (p.2 :: parts)

theorem pathInTree (h : fs.Stores I v) {id : Nat} (hid : v.Linked id) (ino : Nat) :
    Yields I (fs.pathInTree id ino) (v.pathInTree id ino) := by
  apply (h.tree id).seq
  intro r hr
  apply (h.climb hid hr _ _ _).seq
  intro parts _
  exact Yields.pure _

end Fs.Stores

/-! ## Down again -/

/-- A path of these components leads from `a` to `b`: what comes after them goes on
from there. -/
def Fs.Reaches (fs : Fs β) (I : FsState β → Prop) (a : Loc) (parts : List Text) (b : Loc) : Prop :=
  ∀ more r, (∀ above walked, Yields I (fs.resolveFrom more b above walked) r) →
    ∀ above walked, Yields I (fs.resolveFrom (parts ++ more) a above walked) r

namespace Fs

variable {fs : Fs β} {I : FsState β → Prop} {v : Volume} {a b c : Loc}

theorem Reaches.refl (a : Loc) : fs.Reaches I a [] a := fun _ _ h => h

theorem Reaches.trans {p q : List Text} (h : fs.Reaches I a p b) (h' : fs.Reaches I b q c) :
    fs.Reaches I a (p ++ q) c := by
  intro more r hmore
  rw [List.append_assoc]
  exact h (q ++ more) r (h' more r hmore)

/-- A path that leads from the root resolves to where it leads. -/
theorem Reaches.resolve {r : Loc} {path : Text} (h : fs.Reaches I r (pathParts path) b)
    (hroot : Yields I fs.root (.ok r)) : Yields I (fs.resolve path) (.ok b) := by
  apply hroot.bind
  have := h [] (.ok b) (fun _ _ => Yields.pure b) [] []
  rwa [List.append_nil] at this

theorem fromUtf8_eq_some {b : Bytes} {n : Text} (h : Utf8.fromUtf8 b = some n) :
    b = Utf8.toUtf8 n := by
  unfold Utf8.fromUtf8 at h
  split_ifs at h with hb
  cases h
  exact hb.symm

/-- What an entry of the index is called is a plain name. -/
theorem plain_of_index {t : Nat} (hrefs : v.RefsOk t) {p : Nat} {raw : List DirEntry}
    (hraw : v.index ⟨t, p⟩ = .ok raw) {d : DirEntry} (hd : d ∈ raw) :
    ∃ n, d.name = Utf8.toUtf8 n ∧ PlainName n := by
  obtain ⟨x, hx, ds, hds, hmem⟩ := (mem_gather hraw).mp hd
  obtain ⟨hx, -, hty, -⟩ := mem_itemsOf.mp hx
  have hnames := hrefs.names x hx hty
  rw [hds] at hnames
  obtain ⟨n, hn, hplain⟩ := hnames d hmem
  exact ⟨n, fromUtf8_eq_some hn, hplain⟩

section tree

variable (h : fs.Stores I v) (hw : v.WellFormed fs.crates) {t : Nat} (ht : v.Linked t)

include h hw ht

/-- An entry leads where it says. -/
theorem Stores.reaches_entry {p : Nat} {raw : List DirEntry} (hraw : v.index ⟨t, p⟩ = .ok raw)
    {d : DirEntry} (hd : d ∈ raw) {e : Entry} (he : v.entry ⟨t, p⟩ d = .ok e) {n : Text}
    (hn : d.name = Utf8.toUtf8 n) (hplain : PlainName n) : fs.Reaches I ⟨t, p⟩ [n] e.loc := by
  intro more r hmore above walked
  have hp : ¬ isPlaceholder ⟨t, p⟩ := hw.not_placeholder ht
  have htree : v.TreeOk fs.crates (⟨t, p⟩ : Loc).tree := hw.tree t ht
  have hlookup := htree.lookup_of_index hp hraw hd he
  rw [hn] at hlookup
  obtain ⟨i, hi, hdir⟩ := returns_iff.mp (htree.dirOk hraw hd).isDir
  exact h.resolveFrom_cons (fun _ => ht) hplain.1.2.2.2.2
    (h.checkDir_of_isDir (fun _ => ht) hi hdir walked) hlookup (hmore _ _)

/-- What is climbed is followed down again. -/
theorem Stores.reaches_climb (hrefs : v.RefsOk t) {r : TreeRoot} (hr : v.tree t = .ok r) :
    ∀ {left ino : Nat} {parts parts' : List Text}, v.climb t r left ino parts = .ok parts' →
      ∃ ds, parts' = ds ++ parts ∧ (∀ n ∈ ds, PlainName n) ∧
        fs.Reaches I ⟨t, r.rootDirid⟩ ds ⟨t, ino⟩
  | 0, ino, parts, parts', hc => by
    rw [Volume.climb] at hc
    split_ifs at hc with hi
    · cases hc
      exact ⟨[], rfl, fun _ hn => absurd hn List.not_mem_nil, hi ▸ Reaches.refl _⟩
  | left + 1, ino, parts, parts', hc => by
    rw [Volume.climb] at hc
    split_ifs at hc with hi
    · cases hc
      exact ⟨[], rfl, fun _ hn => absurd hn List.not_mem_nil, hi ▸ Reaches.refl _⟩
    · obtain ⟨o, ho, hc⟩ := except_bind_ok.mp hc
      cases o with
      | none => cases hc
      | some q =>
        obtain ⟨p, name⟩ := q
        -- The reference names an entry that leads to the inode.
        obtain ⟨ds, rfl, hplain, hreach⟩ := Stores.reaches_climb hrefs hr hc
        rw [Volume.parentRef] at ho
        cases hx : (itemsOf (v.items t) ino INODE_REF_KEY).head? with
        | none => rw [hx] at ho; cases ho
        | some x =>
          rw [hx] at ho
          obtain ⟨hx, hobj, hty, -⟩ := mem_itemsOf.mp (List.mem_of_mem_head? hx)
          have hall := hrefs.refs
          rw [hr] at hall
          obtain ⟨q, hq, hq'⟩ := returns_iff.mp (hall x hx hty (by rw [hobj]; exact hi))
          have ho : (inodeRefOf x).map some = .ok (some (p, name)) := ho
          rw [hq] at ho
          cases ho
          obtain ⟨raw, hraw, d, hd, hname, hloc, hid⟩ := returns_iff.mp hq'
          have he : v.entry ⟨t, p⟩ d = .ok ⟨d.name, ⟨t, ino⟩, d.ftype, false⟩ := by
            rw [Volume.entry, if_pos (by rw [hloc]; decide), hid, hobj]
            rfl
          obtain ⟨n, hn, hpn⟩ := plain_of_index hrefs hraw hd
          obtain rfl : n = name := Utf8.toUtf8_injective (hn.symm.trans hname)
          refine ⟨ds ++ [n], by simp, ?_, hreach.trans (h.reaches_entry hw ht hraw hd he hn hpn)⟩
          intro m hm
          rcases List.mem_append.mp hm with hm | hm
          · exact hplain m hm
          · rw [List.mem_singleton.mp hm]
            exact hpn

end tree

/-- More steps than are needed are no hindrance. -/
theorem climb_succ {t : Nat} {r : TreeRoot} : ∀ {left ino : Nat} {parts parts' : List Text},
    v.climb t r left ino parts = .ok parts' → v.climb t r (left + 1) ino parts = .ok parts'
  | 0, ino, parts, parts', h => by
    unfold Volume.climb at h ⊢
    split_ifs at h ⊢
    exact h
  | left + 1, ino, parts, parts', h => by
    unfold Volume.climb at h ⊢
    split_ifs at h ⊢
    · exact h
    · obtain ⟨o, ho, h⟩ := except_bind_ok.mp h
      rw [ho]
      cases o with
      | none => cases h
      | some p => exact climb_succ h

end Fs

end BtrfsPeek
