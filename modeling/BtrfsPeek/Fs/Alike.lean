import BtrfsPeek.Fs.Open

/-!
# Runs from related states

Every operation is built of reading blocks, trees and extents. What relation of
states those keep, and do not tell apart, the operations do too (`walk_alike`,
`readRange_alike`). On devices of fixed content the reading itself tells only
what is in the caches apart (`fetchNode_alike`, `decompressExtent_alike`). What a
state holds beside its devices the reading leaves (`readLogical_keeps`), and the
trees the decompressed extent (`layout_last`).
-/

namespace BtrfsPeek

open Effect

variable {β τ : Type} {R : FsState β → FsState β → Prop}

/-- The relation does not look at the devices. -/
def DevFree (R : FsState β → FsState β → Prop) : Prop :=
  ∀ s t d d', R s t → R { s with dev := d } { t with dev := d' }

theorem mem_of_lookup {A B : Type} [BEq A] [LawfulBEq A] {a : A} {b : B} :
    ∀ {l : List (A × B)}, l.lookup a = some b → (a, b) ∈ l
  | [], h => nomatch h
  | (x, y) :: rest, h => by
    rw [List.lookup_cons] at h
    split at h
    · rename_i he
      rw [beq_iff_eq.mp he, Option.some.inj h]; exact List.mem_cons_self
    · exact List.mem_cons_of_mem _ (mem_of_lookup h)

theorem onDev_read_alike (hR : DevFree R) {d : Device β} {c : Content} (h : d.backing.Holds c)
    {off : Nat} (len : Nat) (ho : off < 2 ^ 64) : Alike R (onDev (d.read off len)) := by
  intro s t hst
  obtain ⟨s', hs⟩ := d.read_of_holds h len ho s.dev
  obtain ⟨t', ht⟩ := d.read_of_holds h len ho t.dev
  rw [onDev_run hs, onDev_run ht, value_done, value_done, state_done, state_done]
  exact ⟨rfl, hR _ _ _ _ hst⟩

namespace Fs

variable {fs : Fs β}

/-- Every device is of fixed content. -/
def Honest (fs : Fs β) : Prop := ∀ x ∈ fs.devs, ∃ c, x.2.backing.Holds c

/-- The copies of an address are on the devices, at offsets of 64 bits. -/
theorem mem_mirrors {logical len : Nat} {ms : List (Device β × Nat)}
    (h : fs.mirrors logical len = .ok ms) : ∀ m ∈ ms, (∃ id, (id, m.1) ∈ fs.devs) ∧ m.2 < 2 ^ 64 := by
  unfold mirrors at h
  split at h
  · cases h
  · split_ifs at h
    cases h
    intro m hm
    obtain ⟨⟨id, phys⟩, -, hx⟩ := List.mem_filterMap.mp hm
    obtain ⟨d, hd, rfl⟩ := Option.map_eq_some_iff.mp hx
    exact ⟨⟨id, mem_of_lookup hd⟩, Nat.mod_lt _ (by decide)⟩

section devices

variable (hR : DevFree R) (hfs : fs.Honest)

include hR hfs

theorem readMirrors_alike (len : Nat) : ∀ {ms : List (Device β × Nat)} (e : Error),
    (∀ m ∈ ms, (∃ id, (id, m.1) ∈ fs.devs) ∧ m.2 < 2 ^ 64) → Alike R (readMirrors len ms e)
  | [], e, _ => .throw e
  | (d, phys) :: ms, e, hm => by
    obtain ⟨⟨id, hd⟩, hp⟩ := hm _ List.mem_cons_self
    obtain ⟨c, hc⟩ := hfs _ hd
    refine (onDev_read_alike hR hc len hp).attempt.bind fun r => ?_
    cases r with
    | ok b => exact .pure b
    | error e => exact readMirrors_alike len e fun m h => hm m (List.mem_cons_of_mem _ h)

theorem readLogical_alike (logical len : Nat) : Alike R (fs.readLogical logical len) := by
  intro s t hst
  unfold readLogical
  cases h : fs.mirrors logical len with
  | error e => exact Alike.throw e s t hst
  | ok ms => exact readMirrors_alike hR hfs len _ (mem_mirrors h) s t hst

theorem nodeMirrors_alike (logical : Nat) : ∀ {ms : List (Device β × Nat)} (e : Error),
    (∀ m ∈ ms, (∃ id, (id, m.1) ∈ fs.devs) ∧ m.2 < 2 ^ 64) → Alike R (fs.nodeMirrors logical ms e)
  | [], e, _ => .throw e
  | (d, phys) :: ms, e, hm => by
    obtain ⟨⟨id, hd⟩, hp⟩ := hm _ List.mem_cons_self
    obtain ⟨c, hc⟩ := hfs _ hd
    have next (e : Error) : Alike R (fs.nodeMirrors logical ms e) :=
      nodeMirrors_alike logical e fun m h => hm m (List.mem_cons_of_mem _ h)
    refine (onDev_read_alike hR hc _ hp).attempt.bind fun r => ?_
    cases r with
    | error e => exact next e
    | ok buf =>
      refine (Alike.lift _).bind fun addr => .ite (fun _ => next _) fun _ => ?_
      refine (Alike.lift _).bind fun bad => .ite (fun _ => next _) fun _ => ?_
      exact .ite (fun _ => .throw _) fun _ => .pure _

theorem fetchNode_alike (logical : Nat) : Alike R (fs.fetchNode logical) := by
  intro s t hst
  unfold fetchNode
  cases h : fs.mirrors logical fs.sb.nodesize with
  | error e => exact Alike.throw e s t hst
  | ok ms => exact nodeMirrors_alike hR hfs logical _ (mem_mirrors h) s t hst

theorem decompressExtent_alike (diskBytenr diskNumBytes algo ramBytes : Nat) :
    Alike R (fs.decompressExtent diskBytenr diskNumBytes algo ramBytes) :=
  (Alike.lift _).bind fun _ => (readLogical_alike hR hfs _ _).bind fun _ => .lift _

end devices

/-! ## Walks -/

section walks

variable (hnode : ∀ p, Alike R (fs.readNode p))

theorem visitChildren_alike (n : Node) (min max : Key) {walkChild : Nat → τ → FsM β (Bool × τ)}
    (hw : ∀ p t, Alike R (walkChild p t)) :
    ∀ (count i : Nat) (t : τ), Alike R (n.visitChildren min max walkChild count i t)
  | 0, _, t => .pure (true, t)
  | count + 1, i, t => by
    have next (t : τ) := visitChildren_alike n min max hw count (i + 1) t
    refine (Alike.lift _).bind fun x => .ite (fun _ => .pure _) fun _ => ?_
    refine (Alike.lift _).bind fun skip => .ite (fun _ => next t) fun _ => ?_
    exact (hw _ _).bind fun r => .ite (fun _ => next _) fun _ => .pure _

include hnode

theorem walkNode_alike (min max : Key) (visit : Visit τ) :
    ∀ (left logical : Nat) (expect : Option Nat) (t : τ),
      Alike R (fs.walkNode min max visit left logical expect t)
  | 0, _, _, _ => .throw _
  | left + 1, logical, expect, t => by
    refine (hnode logical).bind fun node => (Alike.lift _).bind fun _ => ?_
    refine .ite (fun _ => .lift _) fun _ => ?_
    exact visitChildren_alike _ _ _ (fun p t => walkNode_alike min max visit left p _ t) _ _ _

theorem walk_alike (root : Nat) (min max : Key) (visit : Visit τ) (t : τ) :
    Alike R (fs.walk root min max visit t) := walkNode_alike hnode min max visit 9 root none t

theorem get_alike (root : Nat) (key : Key) : Alike R (fs.get root key) :=
  (walk_alike hnode _ _ _ _ _).bind fun _ => .pure _

theorem fetchTree_alike (id : Nat) : Alike R (fs.fetchTree id) := by
  refine ((walk_alike hnode _ _ _ _ _).bind fun _ => .pure _).bind fun item => ?_
  cases item with
  | none => exact .throw _
  | some item => exact (Alike.lift _).bind fun _ => (Alike.lift _).bind fun _ => .pure _

theorem findChunks_alike : Alike R fs.findChunks :=
  (walk_alike hnode _ _ _ _ _).bind fun _ => .pure _

theorem isSnapshot_alike (id : Nat) : Alike R (fs.isSnapshot id) :=
  (walk_alike hnode _ _ _ _ _).bind fun _ => .pure _

theorem defaultSubvol_alike : Alike R fs.defaultSubvol := by
  refine (get_alike hnode _ _).bind fun item => ?_
  cases item with
  | none => exact .pure _
  | some item => exact (Alike.lift _).bind fun _ => .pure _

/-! ## Directories and subvolumes -/

variable (htree : ∀ id, Alike R (fs.tree id))

include htree

theorem inode_alike (loc : Loc) : Alike R (fs.inode loc) := by
  refine .ite (fun _ => .pure _) fun _ => ?_
  refine (htree _).bind fun r => (get_alike hnode _ _).bind fun item => ?_
  cases item with
  | none => exact .throw _
  | some item => exact .lift _

theorem extents_alike (loc : Loc) : Alike R (fs.extents loc) :=
  (htree _).bind fun _ => (walk_alike hnode _ _ _ _ _).bind fun _ => .pure _

theorem layout_alike (loc : Loc) : Alike R (fs.layout loc) :=
  (inode_alike hnode htree loc).bind fun _ => (extents_alike hnode htree loc).bind fun _ => .pure _

/-- The extents of a layout are what `Fs::extents` comes to. -/
theorem comes_extents {loc : Loc} {i : Inode} {exts : List Extent}
    (h : Comes R (fs.layout loc) (i, exts)) : Comes R (fs.extents loc) exts := by
  obtain ⟨s, t, hst, hv⟩ := h
  have hr := (inode_alike hnode htree loc s t hst).2
  cases hi : fs.inode loc t with
  | error e t₁ => rw [layout, bind_of_error hi] at hv; cases hv
  | ok j t₁ =>
    rw [layout, bind_of_ok hi] at hv
    cases he : fs.extents loc t₁ with
    | error e t₂ => rw [bind_of_error he] at hv; cases hv
    | ok es t₂ =>
      rw [bind_of_ok he] at hv
      cases hv
      exact ⟨_, t₁, by rwa [hi] at hr, by rw [he]; rfl⟩

omit hnode in
theorem root_alike : Alike R fs.root := (htree _).bind fun _ => .pure _

theorem entry_alike (dir : Loc) (e : DirEntry) : Alike R (fs.entry dir e) := by
  refine .ite (fun _ => .pure _) fun _ => (get_alike hnode _ _).bind fun link => ?_
  cases link with
  | none => exact .pure _
  | some _ => exact (htree _).bind fun _ => .pure _

theorem lookup_alike (dir : Loc) (name : Bytes) : Alike R (fs.lookup dir name) := by
  refine .ite (fun _ => .pure _) fun _ => ?_
  refine (htree _).bind fun r => (get_alike hnode _ _).bind fun item => ?_
  cases item with
  | none => exact .pure _
  | some item =>
    refine (Alike.lift _).bind fun es => ?_
    cases es.find? _ with
    | none => exact .pure _
    | some e => exact (entry_alike hnode htree dir e).bind fun _ => .pure _

theorem readdir_alike (dir : Loc) : Alike R (fs.readdir dir) := by
  refine .ite (fun _ => .pure _) fun _ => ?_
  refine Alike.bind ?_ fun raw => (Alike.mapEach (entry_alike hnode htree dir) raw).bind fun _ =>
    .pure _
  exact (htree _).bind fun _ => (walk_alike hnode _ _ _ _ _).bind fun _ => .pure _

omit htree in
theorem climb_alike (tree : Nat) (root : TreeRoot) :
    ∀ (left ino : Nat) (parts : List Text), Alike R (fs.climb tree root left ino parts)
  | 0, _, _ => .ite (fun _ => .pure _) fun _ => .throw _
  | left + 1, ino, parts => by
    refine .ite (fun _ => .pure _) fun _ => ?_
    refine ((walk_alike hnode _ _ _ _ _).bind fun _ => .pure _).bind fun ref => ?_
    cases ref with
    | none => exact .throw _
    | some ref => exact climb_alike tree root left _ _

theorem pathInTree_alike (tree ino : Nat) : Alike R (fs.pathInTree tree ino) :=
  (htree _).bind fun _ => (climb_alike hnode _ _ _ _ _).bind fun _ => .pure _

theorem placeAll_alike (backrefs : List (Nat × Backref)) :
    ∀ (its : List RootInfo) (p : Placed), Alike R (fs.placeAll backrefs its p)
  | [], _ => .pure _
  | it :: its, p => by
    have next (p : Placed) := placeAll_alike backrefs its p
    unfold placeAll
    cases backrefs.lookup it.id with
    | none => exact next p
    | some ref =>
      dsimp only
      cases p.paths.lookup ref.parent with
      | none => exact (next p).bind fun _ => .pure _
      | some parentPath => exact (pathInTree_alike hnode htree _ _).bind fun _ => next _

theorem placePasses_alike (backrefs : List (Nat × Backref)) :
    ∀ (fuel : Nat) (pending : List RootInfo) (p : Placed),
      Alike R (fs.placePasses backrefs fuel pending p)
  | 0, _, _ => .pure _
  | fuel + 1, pending, p => by
    refine .ite (fun _ => .pure _) fun _ => (placeAll_alike hnode htree _ _ _).bind fun r => ?_
    exact .ite (fun _ => .pure _) fun _ => placePasses_alike backrefs fuel _ _

theorem subvols_alike : Alike R fs.subvols :=
  (walk_alike hnode _ _ _ _ _).bind fun _ => (placePasses_alike hnode htree _ _ _ _).bind fun _ =>
    .pure _

/-! ## File reads -/

/-- Runs that also have a state of their own, the same in both. -/
abbrev WithSame (R : FsState β → FsState β → Prop) (s t : FsState β × τ) : Prop :=
  R s.1 t.1 ∧ s.2 = t.2

omit hnode htree in
theorem emitData_alike (sink : Sink τ) {read : Reader β} (hr : ∀ pos n, Alike R (read pos n))
    (hi : Nat) : ∀ fuel pos, Alike (WithSame R) (emitData sink read hi fuel pos)
  | 0, _ => .pure _
  | fuel + 1, pos => by
    refine .ite (fun _ => ?_) fun _ => .pure _
    exact (Alike.onFst (hr _ _)).bind fun _ => (Alike.onSnd _).bind fun _ =>
      emitData_alike sink hr hi fuel _

omit hnode htree in
theorem emit_alike (sink : Sink τ) (stop lo hi pos : Nat) {data : Option (Reader β)}
    (hd : ∀ read ∈ data, ∀ pos n, Alike R (read pos n)) :
    Alike (WithSame R) (emit sink stop lo hi pos data) := by
  refine .ite (fun _ => .pure _) fun _ => ?_
  refine (Alike.ite (fun _ => .onSnd _) fun _ => .pure _).bind fun _ => ?_
  refine Alike.bind ?_ fun _ => .pure _
  cases data with
  | none => exact .onSnd _
  | some read => exact emitData_alike sink (hd read rfl) _ _ _

/-- What a read of the file at `loc` needs: that data and the file's compressed
extents are read alike. -/
structure ReadsAlike (fs : Fs β) (R : FsState β → FsState β → Prop) (loc : Loc) : Prop where
  logical : ∀ logical len, Alike R (fs.readLogical logical len)
  compressed : ∀ exts, Comes R (fs.extents loc) exts → ∀ e ∈ exts, ∀ a n off,
    e.kind = .regular a n off → a ≠ 0 → e.compression ≠ 0 →
    Alike R (fs.compressedExtent a n e.compression e.ramBytes)

variable {loc : Loc} (hread : ReadsAlike fs R loc)

omit hnode htree in
include hread in
theorem emitExtent_alike {exts : List Extent} (hc : Comes R (fs.extents loc) exts)
    (sink : Sink τ) (stop : Nat) {e : Extent} (he : e ∈ exts) (pos : Nat) :
    Alike (WithSame R) (fs.emitExtent sink stop e pos) := by
  have hnone (stop lo hi pos : Nat) := emit_alike (R := R) sink stop lo hi pos
    (show ∀ read ∈ (none : Option (Reader β)), _ from fun _ h => by cases h)
  have hsome {read : Reader β} (h : ∀ pos n, Alike R (read pos n)) (stop lo hi pos : Nat) :
      Alike (WithSame R) (emit sink stop lo hi pos (some read)) :=
    emit_alike sink stop lo hi pos (by rintro _ ⟨⟩; exact h)
  unfold emitExtent
  cases hk : e.kind with
  | prealloc => exact hnone _ _ _ _
  | inline raw =>
    exact (Alike.lift _).bind fun plain => hsome (fun _ _ => .pure _) _ _ _ _
  | regular a n off =>
    refine .ite (fun _ => hnone _ _ _ _) fun ha => .ite (fun _ => ?_) fun hcomp => ?_
    · cases checkedAdd a off with
      | none => exact .throw _
      | some base =>
        refine hsome (fun pos n => ?_) _ _ _ _
        unfold readPlain
        cases checkedAdd base (pos - e.fileOff) with
        | none => exact .throw _
        | some addr => exact hread.logical _ _
    · refine (Alike.onFst (hread.compressed exts hc e he a n off hk ha hcomp)).bind fun plain => ?_
      exact hsome (fun _ _ => .ite (fun _ => .pure _) fun _ => .throw _) _ _ _ _

omit hnode htree in
include hread in
theorem emitExtents_alike {exts : List Extent} (hc : Comes R (fs.extents loc) exts)
    (sink : Sink τ) (stop : Nat) : ∀ (l : List Extent) (pos : Nat), (∀ e ∈ l, e ∈ exts) →
      Alike (WithSame R) (fs.emitExtents sink stop l pos)
  | [], _, _ => .pure _
  | e :: rest, pos, hl => by
    have next (pos : Nat) := emitExtents_alike hc sink stop rest pos fun x hx =>
      hl x (List.mem_cons_of_mem _ hx)
    refine .ite (fun _ => .pure _) fun _ => .ite (fun _ => next pos) fun _ => ?_
    exact (emitExtent_alike hread hc sink stop (hl e List.mem_cons_self) pos).bind fun _ => next _

include hread

theorem readRange_alike (start stop : Nat) (sink : Sink τ) :
    Alike (WithSame R) (fs.readRange loc start stop sink) := by
  refine (Alike.onFst (layout_alike hnode htree loc)).bind_comes fun r hc => ?_
  obtain ⟨i, exts⟩ := r
  have hc : Comes R (fs.layout loc) (i, exts) := by
    obtain ⟨s, t, hst, hv⟩ := hc
    exact ⟨s.1, t.1, hst.1, by simpa only [Effect.onFst, value_done] using hv⟩
  refine (emitExtents_alike hread (comes_extents hnode htree hc) sink _ exts start fun _ h => h).bind
    fun pos => ?_
  exact (emit_alike sink _ _ _ _ (show ∀ read ∈ (none : Option (Reader β)), _ from fun _ h => by cases h)).bind
    fun _ => .pure _

theorem readToVec_alike (cap : Nat) : Alike R (fs.readToVec loc cap) :=
  (Alike.withLocal _ (readRange_alike hnode htree hread 0 cap collect)).bind fun _ => .pure _

theorem readSymlinkTarget_alike : Alike R (fs.readSymlinkTarget loc) :=
  (inode_alike hnode htree loc).bind fun _ => (Alike.lift _).bind fun _ =>
    readToVec_alike hnode htree hread _

omit hread

/-! ## Paths -/

variable (hsym : ∀ loc i, Comes R (fs.inode loc) i → i.isSymlink → ReadsAlike fs R loc)

include hsym

theorem checkDir_alike (dir : Loc) (walked : Text) : Alike R (fs.checkDir dir walked) := by
  refine .ite (fun _ => .pure _) fun _ => (inode_alike hnode htree dir).bind_comes fun i hi => ?_
  refine .ite (fun hs => ?_) fun _ => .lift _
  exact (readSymlinkTarget_alike hnode htree (hsym dir i hi hs)).bind fun _ => .throw _

theorem resolveFrom_alike : ∀ (parts : List Text) (dir : Loc) (above : List Loc) (walked : Text),
    Alike R (fs.resolveFrom parts dir above walked)
  | [], _, _, _ => .pure _
  | part :: parts, dir, above, walked => by
    unfold resolveFrom
    refine .ite (fun _ => ?_) fun _ => ?_
    · cases above with
      | nil => exact resolveFrom_alike parts _ _ _
      | cons parent above => exact resolveFrom_alike parts _ _ _
    · refine (checkDir_alike hnode htree hsym dir walked).bind fun _ => ?_
      refine (lookup_alike hnode htree dir _).bind fun e => ?_
      cases e with
      | none => exact .throw _
      | some e => exact resolveFrom_alike parts _ _ _

theorem resolve_alike (path : Text) : Alike R (fs.resolve path) :=
  (root_alike htree).bind fun _ => resolveFrom_alike hnode htree hsym _ _ _ _

end walks

/-! ## What a state may hold -/

section keeps

variable {fs : Fs β} {P : FsState β → Prop} (hdev : ∀ s dev, P s → P { s with dev := dev })

include hdev

theorem onDev_keeps {α : Type} (x : EStateM IoError β α) : Keeps P (onDev x) := by
  intro s hs
  unfold onDev
  cases x s.dev with
  | ok a d => exact hdev s d hs
  | error e d => exact hdev s d hs

theorem readMirrors_keeps (len : Nat) : ∀ (ms : List (Device β × Nat)) (e : Error),
    Keeps P (readMirrors len ms e)
  | [], _ => .throw _
  | (d, phys) :: ms, _ => (onDev_keeps hdev (d.read phys len)).attempt.bind fun r => by
    cases r with
    | ok b => exact .pure b
    | error e => exact readMirrors_keeps len ms e

theorem readLogical_keeps (logical len : Nat) : Keeps P (fs.readLogical logical len) :=
  (Keeps.lift _).bind fun ms => readMirrors_keeps hdev len ms _

theorem nodeMirrors_keeps (logical : Nat) : ∀ (ms : List (Device β × Nat)) (e : Error),
    Keeps P (fs.nodeMirrors logical ms e)
  | [], _ => .throw _
  | (d, phys) :: ms, _ => (onDev_keeps hdev (d.read phys fs.sb.nodesize)).attempt.bind fun r => by
    have next (e : Error) := nodeMirrors_keeps logical ms e
    cases r with
    | error e => exact next e
    | ok buf =>
      refine (Keeps.lift _).bind fun addr => .ite (fun _ => next _) fun _ => ?_
      refine (Keeps.lift _).bind fun bad => .ite (fun _ => next _) fun _ => ?_
      exact .ite (fun _ => .throw _) fun _ => .pure _

theorem fetchNode_keeps (logical : Nat) : Keeps P (fs.fetchNode logical) :=
  (Keeps.lift _).bind fun ms => nodeMirrors_keeps hdev logical ms _

end keeps

/-- `P` is about the decompressed extent alone. -/
def OfLast (P : FsState β → Prop) : Prop := ∀ s t, s.lastExtent = t.lastExtent → P s → P t

section last

variable {fs : Fs β} {P : FsState β → Prop} (hP : OfLast P)

include hP

/-- What is read of the trees leaves the decompressed extent. -/
theorem readNode_last (p : Nat) : Keeps P (fs.readNode p) := by
  refine Keeps.get.bind fun s => ?_
  cases s.nodes.lookup p with
  | some n => exact .pure n
  | none =>
    refine (fetchNode_keeps (fun s dev h => hP s { s with dev := dev } rfl h) p).bind fun n => ?_
    refine (Keeps.modify (g := cacheNode p n) ?_).bind fun _ => .pure n
    exact fun s h => hP s (cacheNode p n s) rfl h

theorem tree_last (id : Nat) : Keeps P (fs.tree id) := by
  refine Keeps.get.bind fun s => ?_
  cases s.roots.lookup id with
  | some r => exact .pure r
  | none =>
    have hfetch : Alike _ (fs.fetchTree id) :=
      fetchTree_alike (fun p => alike_of_keeps (readNode_last hP p)) id
    refine (keeps_of_alike hfetch).bind fun r => ?_
    refine (Keeps.modify (g := fun s : FsState β => { s with roots := (id, r) :: s.roots }) ?_).bind
      fun _ => .pure r
    exact fun s h => hP s { s with roots := (id, r) :: s.roots } rfl h

theorem layout_last (loc : Loc) : Keeps P (fs.layout loc) :=
  keeps_of_alike (layout_alike (fun p => alike_of_keeps (readNode_last hP p))
    (fun id => alike_of_keeps (tree_last hP id)) loc)

end last

end Fs

end BtrfsPeek
