import BtrfsPeek.Fs.RootItems
import BtrfsPeek.Fs.Alike

/-!
# What was read on the way

A corrupt image need not read the same twice. What a long operation made of it is told by
what it read when: from a state `s`, the states that reading leads to (`Fs.Later`), and
what one of them reads (`Fs.Sometime`). What a directory lists is so told by the entry
read for it (`Fs.Found`), and whether a tree is a snapshot by its newest root item
(`Fs.isSnapshot_eq`).
-/

namespace BtrfsPeek

open Effect

variable {β τ τ' : Type}

namespace Fs

variable (fs : Fs β)

/-- A state that reading leads to from `s`. -/
inductive Later (s : FsState β) : FsState β → Prop
  | refl : Later s s
  | node {t : FsState β} (p : Nat) : Later s t → Later s (Result.state (fs.readNode p t))
  | tree {t : FsState β} (id : Nat) : Later s t → Later s (Result.state (fs.tree id t))
  | logical {t : FsState β} (addr len : Nat) :
    Later s t → Later s (Result.state (fs.readLogical addr len t))
  | extent {t : FsState β} (addr n algo ramBytes : Nat) :
    Later s t → Later s (Result.state (fs.compressedExtent addr n algo ramBytes t))

/-- What holds of the filesystem's state holds however it is read. -/
def Lasting (I : FsState β → Prop) : Prop := ∀ s t, I s → fs.Later s t → I t

/-- In one of the states that reading leads to from `s`, `x` reads what satisfies `P`. -/
def Sometime {α : Type} (s : FsState β) (x : FsM β α) (P : α → Prop) : Prop :=
  ∃ t a, fs.Later s t ∧ Result.value (x t) = .ok a ∧ P a

/-- In one of them, it fails with that. -/
def FailsOnce {α : Type} (s : FsState β) (x : FsM β α) (err : Error) : Prop :=
  ∃ t, fs.Later s t ∧ Result.value (x t) = .error err

/-- The entry of `dir` is what was read for an entry of its index. -/
def Found (s : FsState β) (dir : Loc) (e : Entry) : Prop :=
  ¬ isPlaceholder dir ∧ ∃ x : DirEntry, fs.Sometime s (fs.dirEntries dir) (x ∈ ·) ∧
    fs.Sometime s (fs.entry dir x) (· = e)

variable {fs} {s t : FsState β}

theorem Sometime.mono {α : Type} {x : FsM β α} {P Q : α → Prop} (h : fs.Sometime s x P)
    (hpq : ∀ a, P a → Q a) : fs.Sometime s x Q := by
  obtain ⟨t, a, ht, ha, hp⟩ := h
  exact ⟨t, a, ht, ha, hpq a hp⟩

theorem Sometime.of_run {α : Type} {x : FsM β α} {P : α → Prop} {a : α} {t' : FsState β}
    (ht : fs.Later s t) (hx : x t = .ok a t') (ha : P a) : fs.Sometime s x P :=
  ⟨t, a, ht, by rw [hx]; rfl, ha⟩

/-! ## Reading -/

/-- A run beside itself, from a state that reading led to. -/
abbrev SameLater (fs : Fs β) (s u v : FsState β) : Prop := u = v ∧ fs.Later s u

theorem readNode_later (p : Nat) : Alike (fs.SameLater s) (fs.readNode p) :=
  alike_of_keeps (Ensures.of_state fun _ h => .node p h)

theorem tree_later (id : Nat) : Alike (fs.SameLater s) (fs.tree id) :=
  alike_of_keeps (Ensures.of_state fun _ h => .tree id h)

theorem readsAlike_later (loc : Loc) : ReadsAlike fs (fs.SameLater s) loc where
  logical addr len := alike_of_keeps (Ensures.of_state fun _ h => .logical addr len h)
  compressed _ _ e _ addr n _ _ _ _ :=
    alike_of_keeps (Ensures.of_state fun _ h => .extent addr n e.compression e.ramBytes h)

theorem inode_keeps (loc : Loc) : Keeps (fs.Later s) (fs.inode loc) :=
  keeps_of_alike (inode_alike readNode_later tree_later loc)

theorem isSnapshot_keeps (id : Nat) : Keeps (fs.Later s) (fs.isSnapshot id) :=
  keeps_of_alike (isSnapshot_alike readNode_later id)

theorem dirEntries_keeps (dir : Loc) : Keeps (fs.Later s) (fs.dirEntries dir) :=
  keeps_of_alike ((tree_later _).bind fun _ => (walk_alike readNode_later _ _ _ _ _).bind fun _ =>
    .pure _)

theorem entry_keeps (dir : Loc) (x : DirEntry) : Keeps (fs.Later s) (fs.entry dir x) :=
  keeps_of_alike (entry_alike readNode_later tree_later dir x)

theorem readdir_keeps (dir : Loc) : Keeps (fs.Later s) (fs.readdir dir) :=
  keeps_of_alike (readdir_alike readNode_later tree_later dir)

theorem readSymlinkTarget_keeps (loc : Loc) : Keeps (fs.Later s) (fs.readSymlinkTarget loc) :=
  keeps_of_alike (readSymlinkTarget_alike readNode_later tree_later (readsAlike_later loc))

theorem resolve_keeps (path : Text) : Keeps (fs.Later s) (fs.resolve path) :=
  keeps_of_alike (resolve_alike readNode_later tree_later (fun loc _ _ _ => readsAlike_later loc) path)

theorem get_keeps (root : Nat) (key : Key) : Keeps (fs.Later s) (fs.get root key) :=
  keeps_of_alike (get_alike readNode_later root key)

/-- What a file's bytes are handed to has no part in what reads them. -/
theorem readRange_later (loc : Loc) (start stop : Nat) (sink : Sink τ) :
    Keeps (fun u : FsState β × τ => fs.Later s u.1) (fs.readRange loc start stop sink) := by
  refine Ensures.of_state fun u hu => ?_
  have h := readRange_alike readNode_later tree_later (readsAlike_later loc) start stop sink u u
    ⟨⟨rfl, hu⟩, rfl⟩
  exact h.2.1.2

/-! ## What a directory lists -/

/-- What is returned was read, and reading goes on. -/
theorem sometime_of_keeps {α : Type} {x : FsM β α} (hx : Keeps (fs.Later s) x) :
    Ensures (fs.Later s) x (fun a u => fs.Later s u ∧ fs.Sometime s x (· = a)) fun _ => fs.Later s :=
  .of_outcomes (fun _ _ _ hu hr => ⟨hx.ok hu hr, .of_run hu hr rfl⟩) fun _ _ _ hu hr => hx.error hu hr

theorem readdir_found (dir : Loc) : Ensures (fs.Later s) (fs.readdir dir)
    (fun es u => fs.Later s u ∧ ∀ e ∈ es, fs.Found s dir e) fun _ => fs.Later s := by
  unfold readdir
  split_ifs with hp
  · exact Ensures.pure fun u hu => ⟨hu, fun _ he => absurd he List.not_mem_nil⟩
  · refine (sometime_of_keeps (dirEntries_keeps dir)).bind fun raw => Ensures.fact fun hraw => ?_
    have hout : Ensures (fs.Later s) (mapEach (fs.entry dir) raw)
        (fun out u => fs.Later s u ∧ ∀ e ∈ out, ∃ x ∈ raw, fs.Sometime s (fs.entry dir x) (· = e))
        fun _ => fs.Later s :=
      .mapEach fun x _ => sometime_of_keeps (entry_keeps dir x)
    refine hout.bind fun out => Ensures.fact fun hfound => Ensures.pure fun u hu => ⟨hu, fun e he => ?_⟩
    obtain ⟨x, hx, hxe⟩ := hfound e ((List.mem_insertionSort byName).mp he)
    exact ⟨hp, x, hraw.mono fun _ ha => ha ▸ hx, hxe⟩

variable (fs) in
/-- The entry of a directory for subvolume `child`, when what is read for the ROOT_REF
that ties the child to the directory's tree is `link`: it leads to the child's root, or,
if there is none, to the empty placeholder. -/
def LeadsBy (s : FsState β) (child : Nat) (e : Entry) : (link : Option Bytes) → Prop
  | some _ => fs.Sometime s (fs.tree child) fun r => e.loc = ⟨child, r.rootDirid⟩
  | none => e.loc = ⟨0, 0⟩

variable (fs) in
/-- The entry is of subvolume `child`, and leads where a ROOT_REF decides. -/
def Nested (s : FsState β) (dir : Loc) (child : Nat) (e : Entry) : Prop :=
  e.ftype = FT_DIR ∧ fs.Sometime s (fs.get fs.sb.root ⟨dir.tree, ROOT_REF_KEY, child⟩)
    (fs.LeadsBy s child e)

/-- What is read for an entry of a directory's index. -/
theorem entry_reads (dir : Loc) (x : DirEntry) : Ensures (fs.Later s) (fs.entry dir x)
    (fun e _ => e.name = x.name ∧
      (x.location.ty ≠ ROOT_ITEM_KEY ∧ e.subvol = false ∧ e.loc.tree = dir.tree ∨
        x.location.ty = ROOT_ITEM_KEY ∧ e.subvol = true ∧ fs.Nested s dir x.location.objectid e))
    fun _ _ => True := by
  unfold entry
  split_ifs with hty
  · exact Ensures.pure fun u _ => ⟨rfl, .inl ⟨hty, rfl, rfl⟩⟩
  · refine Ensures.bind ((sometime_of_keeps (get_keeps _ _)).mono (fun _ hu => hu) (fun _ _ hu => hu)
      fun _ _ _ => trivial) fun link => Ensures.fact fun hlink => ?_
    cases link with
    | none =>
      refine Ensures.pure fun u hu => ⟨rfl, .inr ⟨not_not.mp hty, rfl, rfl, hlink.mono ?_⟩⟩
      rintro _ rfl
      rfl
    | some item =>
      refine Ensures.bind ((sometime_of_keeps (keeps_of_alike (tree_later _))).mono
        (fun _ hu => hu) (fun _ _ hu => hu) fun _ _ _ => trivial) fun r => Ensures.fact fun htree => ?_
      refine Ensures.pure fun u _ => ⟨rfl, .inr ⟨not_not.mp hty, rfl, rfl, hlink.mono ?_⟩⟩
      rintro _ rfl
      exact htree.mono fun _ ha => ha ▸ rfl

theorem Found.reads {dir : Loc} {e : Entry} (h : fs.Found s dir e) :
    ∃ x : DirEntry, fs.Sometime s (fs.dirEntries dir) (x ∈ ·) ∧ e.name = x.name ∧
      (x.location.ty ≠ ROOT_ITEM_KEY ∧ e.subvol = false ∧ e.loc.tree = dir.tree ∨
        x.location.ty = ROOT_ITEM_KEY ∧ e.subvol = true ∧ fs.Nested s dir x.location.objectid e) := by
  obtain ⟨-, x, hx, t, a, ht, ha, rfl⟩ := h
  refine ⟨x, hx, ?_⟩
  have hreads := entry_reads dir x t ht
  cases hr : fs.entry dir x t with
  | error err u => rw [hr] at ha; cases ha
  | ok e u =>
    rw [hr] at ha hreads
    cases ha
    exact hreads

/-- An entry that is no subvolume stays in the tree. -/
theorem Found.tree_eq {dir : Loc} {e : Entry} (h : fs.Found s dir e) (hs : e.subvol = false) :
    e.loc.tree = dir.tree := by
  obtain ⟨x, -, -, ⟨-, -, htree⟩ | ⟨-, hsub, -⟩⟩ := h.reads
  · exact htree
  · rw [hs] at hsub
    cases hsub

/-- Where an entry of another subvolume leads is decided by a ROOT_REF. -/
theorem Found.nested {dir : Loc} {e : Entry} (h : fs.Found s dir e) (hs : e.subvol = true) :
    ∃ x : DirEntry, fs.Sometime s (fs.dirEntries dir) (x ∈ ·) ∧ x.name = e.name ∧
      x.location.ty = ROOT_ITEM_KEY ∧ fs.Nested s dir x.location.objectid e := by
  obtain ⟨x, hx, hname, ⟨-, hsub, -⟩ | ⟨hty, -, hnested⟩⟩ := h.reads
  · rw [hs] at hsub
    cases hsub
  · exact ⟨x, hx, hname.symm, hty, hnested⟩

end Fs

/-! ## The newest root item -/

/-- Whether a root item is that of a snapshot. -/
def snapshotItem (d : Bytes) : Bool := decide (snapshotBit d = .ok true)

theorem snapshotBit_eq (d : Bytes) : snapshotBit d = .ok (snapshotItem d) := by
  obtain ⟨b, hb⟩ := snapshotBit_ok d
  rw [snapshotItem, hb]
  cases b <;> rfl

section map

variable {visit : Visit τ} {visit' : Visit τ'} {g : τ → τ'}
  (h : ∀ k d t, visit' k d (g t) = (fun r => (r.1, g r.2)) <$> visit k d t)

include h

theorem Node.visitItems_map (n : Node) (min max : Key) : ∀ (count i : Nat) (t : τ),
    n.visitItems min max visit' count i (g t) =
      (fun r => (r.1, g r.2)) <$> n.visitItems min max visit count i t
  | 0, _, _ => rfl
  | count + 1, i, t => by
    rw [Node.visitItems, Node.visitItems, map_bind]
    congr 1
    funext x
    obtain ⟨key, data⟩ := x
    dsimp only
    split_ifs with hlow hhigh
    · exact visitItems_map n min max count (i + 1) t
    · rfl
    · rw [h, map_bind, bind_map_left]
      congr 1
      funext r
      dsimp only
      split_ifs with hmore
      · exact visitItems_map n min max count (i + 1) r.2
      · rfl

omit h in
theorem Node.visitChildren_map (n : Node) (min max : Key) {walkChild : Nat → τ → FsM β (Bool × τ)}
    {walkChild' : Nat → τ' → FsM β (Bool × τ')}
    (hw : ∀ p t, walkChild' p (g t) = (fun r => (r.1, g r.2)) <$> walkChild p t) :
    ∀ (count i : Nat) (t : τ), n.visitChildren min max walkChild' count i (g t) =
      (fun r => (r.1, g r.2)) <$> n.visitChildren min max walkChild count i t
  | 0, _, _ => rfl
  | count + 1, i, t => by
    rw [Node.visitChildren, Node.visitChildren, map_bind]
    congr 1
    funext x
    obtain ⟨key, child⟩ := x
    dsimp only
    split_ifs with hhigh
    · rfl
    · rw [map_bind]
      congr 1
      funext skip
      split_ifs with hskip
      · exact visitChildren_map n min max hw count (i + 1) t
      · rw [hw, map_bind, bind_map_left]
        congr 1
        funext r
        dsimp only
        split_ifs with hmore
        · exact visitChildren_map n min max hw count (i + 1) r.2
        · rfl

namespace Fs

variable {fs : Fs β}

theorem walkNode_map (min max : Key) : ∀ (left p : Nat) (expect : Option Nat) (t : τ),
    fs.walkNode min max visit' left p expect (g t) =
      (fun r => (r.1, g r.2)) <$> fs.walkNode min max visit left p expect t
  | 0, _, _, _ => rfl
  | left + 1, p, expect, t => by
    rw [walkNode, walkNode, map_bind]
    congr 1
    funext n
    rw [map_bind]
    congr 1
    funext _
    split_ifs with hlevel
    · rw [Node.visitItems_map h]
      cases n.visitItems min max visit n.nritems 0 t <;> rfl
    · exact n.visitChildren_map min max (fun p t => walkNode_map min max left p _ t) _ _ _

/-- A visitor that keeps a function of what another keeps. -/
theorem walk_map (root : Nat) (min max : Key) (t : τ) : fs.walk root min max visit' (g t) =
    (fun r => (r.1, g r.2)) <$> fs.walk root min max visit t := walkNode_map h min max 9 root none t

end Fs

end map

/-- What the visitor keeps of the value handed on, a walk keeps. -/
theorem Fs.walk_keeps {fs : Fs β} {P : τ → Prop} {visit : Visit τ}
    (h : ∀ k d t r, P t → visit k d t = .ok r → P r.2) {root : Nat} {min max : Key} {t t' : τ}
    {more : Bool} {s s' : FsState β} (ht : P t)
    (hw : fs.walk root min max visit t s = .ok (more, t') s') : P t' := by
  let visitKept : Visit (Subtype P) := fun k d t =>
    match hv : visit k d t.1 with
    | .ok r => .ok (r.1, ⟨r.2, h k d t.1 r t.2 hv⟩)
    | .error e => .error e
  have hkept : ∀ k d (t : Subtype P), visit k d t.1 = (fun r => (r.1, r.2.1)) <$> visitKept k d t := by
    intro k d t
    dsimp only [visitKept]
    split
    · rename_i r hv
      exact hv
    · rename_i e hv
      exact hv
  rw [show t = Subtype.val ⟨t, ht⟩ from rfl, walk_map hkept, ← bind_pure_comp] at hw
  obtain ⟨r, s₁, -, hw⟩ := bind_ok_iff.mp hw
  cases hw
  exact r.2.2

/-- On every image: a tree is a snapshot if its newest root item is that of one. -/
theorem Fs.isSnapshot_eq (fs : Fs β) (id : Nat) :
    fs.isSnapshot id = (fun item => item.any snapshotItem) <$> fs.rootItem id := by
  have hwalk : fs.walk fs.sb.root ⟨id, ROOT_ITEM_KEY, 0⟩ ⟨id, ROOT_ITEM_KEY, U64_MAX⟩
      (fun _ d _ => do return (true, ← snapshotBit d)) false = (fun r => (r.1, r.2.any snapshotItem)) <$>
        fs.walk fs.sb.root ⟨id, ROOT_ITEM_KEY, 0⟩ ⟨id, ROOT_ITEM_KEY, U64_MAX⟩
          (fun _ d _ => .ok (true, some d)) none := by
    refine walk_map (g := fun item : Option Bytes => item.any snapshotItem) (fun k d last => ?_) _ _ _ none
    rw [snapshotBit_eq]
    rfl
  rw [isSnapshot, rootItem, map_bind, hwalk, bind_map_left]
  rfl

/-- A tree was found not to be a snapshot: its newest root item was not that of one. -/
theorem Fs.Sometime.of_isSnapshot {fs : Fs β} {s : FsState β} {id : Nat}
    (h : fs.Sometime s (fs.isSnapshot id) (· = false)) :
    fs.Sometime s (fs.rootItem id) fun item => ∀ d ∈ item, snapshotBit d = .ok false := by
  obtain ⟨t, a, ht, ha, rfl⟩ := h
  rw [Fs.isSnapshot_eq, ← bind_pure_comp, bind_run] at ha
  cases hr : fs.rootItem id t with
  | error err u => rw [hr] at ha; cases ha
  | ok item u =>
    rw [hr] at ha
    have hany : item.any snapshotItem = false := Except.ok.inj ha
    refine .of_run ht hr fun d hd => ?_
    obtain rfl := Option.mem_def.mp hd
    rw [snapshotBit_eq]
    exact congrArg _ hany

/-! ## A filesystem whose devices are gone -/

namespace Fs

variable {fs : Fs β} {I : FsState β → Prop} {v : Volume}

theorem mirrors_gone (h : fs.devs = []) (logical len : Nat) : ∃ e, fs.mirrors logical len = .error e := by
  unfold mirrors
  cases (fs.chunkAt logical).filter _ with
  | none => exact ⟨_, rfl⟩
  | some c =>
    have hcopies : fs.copies c logical = [] := by
      rw [copies, h]
      simp
    simp only [hcopies, if_true]
    split_ifs
    · exact ⟨_, rfl⟩
    · exact ⟨_, rfl⟩

/-- Nothing more is cached but roots, which are read from what is. -/
theorem Lasting.of_gone (hdevs : fs.devs = []) (h : fs.Stores I v) : fs.Lasting I := by
  intro s t hs ht
  have hlogical : ∀ addr len t, ∃ e, fs.readLogical addr len t = .error e t := by
    intro addr len t
    obtain ⟨e, he⟩ := mirrors_gone hdevs addr len
    exact ⟨e, by rw [readLogical, he]; rfl⟩
  induction ht with
  | refl => exact hs
  | @node t p _ ih =>
    unfold readNode
    rw [bind_of_ok (get_run t)]
    cases t.nodes.lookup p with
    | some n => exact ih
    | none =>
      obtain ⟨e, he⟩ := mirrors_gone hdevs p fs.sb.nodesize
      have hfetch : fs.fetchNode p t = .error e t := by
        rw [fetchNode, he]
        rfl
      dsimp only
      rw [bind_of_error hfetch]
      exact ih
  | @tree t id _ ih =>
    obtain ⟨t', ht', hrun⟩ := h.tree id t ih
    rw [hrun, state_done]
    exact ht'
  | @logical t addr len _ ih =>
    obtain ⟨e, he⟩ := hlogical addr len t
    rw [he]
    exact ih
  | @extent t addr n algo ramBytes _ ih =>
    unfold compressedExtent
    rw [bind_of_ok (get_run t)]
    cases cachedExtent addr t with
    | some data => exact ih
    | none =>
      obtain ⟨e, he⟩ := hlogical addr n t
      have hextent : ∃ e, fs.decompressExtent addr n algo ramBytes t = .error e t := by
        unfold decompressExtent bailIf
        split_ifs
        · exact ⟨_, rfl⟩
        · exact ⟨e, (bind_of_ok rfl).trans (bind_of_error he)⟩
      obtain ⟨e, he⟩ := hextent
      dsimp only
      rw [bind_of_error he]
      exact ih

end Fs

end BtrfsPeek
