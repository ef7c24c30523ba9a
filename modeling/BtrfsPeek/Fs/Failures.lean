import BtrfsPeek.Fs.Alike
import BtrfsPeek.Fs.Reach
import BtrfsPeek.Lib.Failures

/-!
# What the operations fail with

A set of errors that has what the program makes itself (`Error.Closed`) and what the
devices answer, unless they note it (`Fs.Answers`), has whatever an operation fails with, or
it is hasNote. Each lemma follows its operation; the walks and the reads are `Fs.walk_fails`
and `Fs.readRange_fails`, and opening is `Fs.open_fails`.
-/

namespace BtrfsPeek

open Effect

variable {β τ : Type} {E : Error → Prop}

/-- A set of errors that has those the program makes, and with an error what is said
around it. -/
structure Error.Closed (E : Error → Prop) : Prop where
  msg (text : String) : E (.msg text)
  notFound (path : String) : E (.notFound path)
  accessDenied : E .accessDenied
  incomplete (failures : Nat) : E (.incomplete failures)
  /-- A line of the manifest that could not be written. -/
  json (e : IoError) : E (.json e)
  /-- A read past the end of a device. -/
  pastEnd (text : String) : E (.io ⟨.unexpectedEof, text, .device⟩)
  /-- A stream that does not decode. -/
  undecodable (text : String) : E (.io ⟨.invalidData, text, .device⟩)
  context {text : String} {e : Error} : E e → E (.context text e)

/-! ## Parsers -/

section parsers

variable (hE : Error.Closed E)

include hE

theorem bailIf_errs (c : Prop) [Decidable c] (text : String) : Errs E (bailIf c (.msg text)) :=
  .ite (fun _ => .error (hE.msg _)) fun _ => .ok _

theorem bytes_errs (b : Bytes) (off len : Nat) : Errs E (bytes b off len) :=
  .ite (fun _ => .ok _) fun _ => .error (hE.msg _)

theorem uintAt_errs (w : Nat) (b : Bytes) (off : Nat) : Errs E (uintAt w b off) :=
  (bytes_errs hE _ _ _).bind fun _ => .ok _

theorem Key.parse_errs (b : Bytes) (off : Nat) : Errs E (Key.parse b off) :=
  (uintAt_errs hE 8 _ _).bind fun _ => (uintAt_errs hE 1 _ _).bind fun _ =>
    (uintAt_errs hE 8 _ _).bind fun _ => .ok _

theorem Superblock.checkSum_errs (X : Crates) (ty : Nat) (b : Bytes) :
    Errs E (Superblock.checkSum X ty b) := by
  refine .ite (fun _ => ?_) fun _ => .ok _
  exact (uintAt_errs hE 4 _ _).bind fun _ => (bytes_errs hE _ _ _).bind fun _ => bailIf_errs hE _ _

theorem Superblock.parse_errs (X : Crates) (b : Bytes) : Errs E (Superblock.parse X b) := by
  have hu (w off : Nat) : Errs E (uintAt w b off) := uintAt_errs hE w b off
  have hb (off len : Nat) : Errs E (bytes b off len) := bytes_errs hE b off len
  refine (hb _ _).bind fun magic => (bailIf_errs hE _ _).bind fun _ => (hu 2 _).bind fun ty => ?_
  refine (checkSum_errs hE X ty b).bind fun _ => (hu 4 _).bind fun sysLen => ?_
  refine (bailIf_errs hE _ _).bind fun _ => (hb _ _).bind fun _ => (hb _ _).bind fun _ => ?_
  refine (hu 8 _).bind fun _ => (hu 8 _).bind fun _ => (hu 8 _).bind fun _ => (hu 8 _).bind fun _ => ?_
  refine (hu 8 _).bind fun _ => (hu 8 _).bind fun _ => (hu 8 _).bind fun _ => (hu 8 _).bind fun _ => ?_
  refine (hu 4 _).bind fun sectorsize => (hu 4 _).bind fun nodesize => (hu 8 _).bind fun _ => ?_
  refine (hu 8 _).bind fun _ => (hb _ _).bind fun _ => ?_
  split_ifs
  · exact .ok _
  · exact .error (hE.msg _)
  · exact .error (hE.msg _)

theorem Chunk.stripesAt_errs (b : Bytes) : ∀ count i, Errs E (Chunk.stripesAt b count i)
  | 0, _ => .ok _
  | count + 1, i => (uintAt_errs hE 8 _ _).bind fun _ => (uintAt_errs hE 8 _ _).bind fun _ =>
    (stripesAt_errs b count (i + 1)).bind fun _ => .ok _

theorem Chunk.parse_errs (start : Nat) (b : Bytes) : Errs E (Chunk.parse start b) :=
  (uintAt_errs hE 2 _ _).bind fun _ => (bailIf_errs hE _ _).bind fun _ =>
    (stripesAt_errs hE _ _ _).bind fun _ => (uintAt_errs hE 8 _ _).bind fun _ =>
      (uintAt_errs hE 8 _ _).bind fun _ => .ok _

theorem Inode.parse_errs (b : Bytes) : Errs E (Inode.parse b) := by
  have hu (w off : Nat) : Errs E (uintAt w b off) := uintAt_errs hE w b off
  refine (bytes_errs hE _ _ _).bind fun _ => (hu 8 _).bind fun _ => (hu 4 _).bind fun _ => ?_
  refine (hu 4 _).bind fun _ => (hu 4 _).bind fun _ => (hu 4 _).bind fun _ => (hu 8 _).bind fun _ => ?_
  exact (hu 4 _).bind fun _ => .ok _

theorem dirEntryAt_errs (b : Bytes) (off : Nat) : Errs E (dirEntryAt b off) :=
  (Key.parse_errs hE _ _).bind fun _ => (uintAt_errs hE 2 _ _).bind fun _ =>
    (uintAt_errs hE 2 _ _).bind fun _ => (uintAt_errs hE 1 _ _).bind fun _ =>
      (bytes_errs hE _ _ _).bind fun _ => .ok _

theorem dirEntriesFrom_errs (b : Bytes) : ∀ fuel off, Errs E (dirEntriesFrom b fuel off)
  | 0, _ => .ok _
  | fuel + 1, off => by
    refine .ite (fun _ => ?_) fun _ => .ok _
    exact (dirEntryAt_errs hE b off).bind fun _ => (dirEntriesFrom_errs b fuel _).bind fun _ => .ok _

theorem parseDirEntries_errs (b : Bytes) : Errs E (parseDirEntries b) := dirEntriesFrom_errs hE b _ _

theorem Extent.parse_errs (fileOff : Nat) (b : Bytes) : Errs E (Extent.parse fileOff b) := by
  have hu (w off : Nat) : Errs E (uintAt w b off) := uintAt_errs hE w b off
  refine (hu 8 _).bind fun _ => (hu 1 _).bind fun _ => (hu 1 _).bind fun _ => ?_
  refine (bailIf_errs hE _ _).bind fun _ => (hu 1 _).bind fun ty => ?_
  split
  · exact (bytes_errs hE _ _ _).bind fun _ => .ok _
  · exact (hu 8 _).bind fun _ => (hu 8 _).bind fun _ => (hu 8 _).bind fun _ => (hu 8 _).bind fun _ => .ok _
  · exact (hu 8 _).bind fun _ => .ok _
  · exact .error (hE.msg _)

theorem snapshotBit_errs (d : Bytes) : Errs E (snapshotBit d) :=
  .ite (fun _ => (bytes_errs hE _ _ _).bind fun _ => .ok _) fun _ => .ok _

theorem RootItems.visit_errs (k : Key) (d : Bytes) (r : RootItems) : Errs E (RootItems.visit k d r) := by
  have hu (w off : Nat) : Errs E (uintAt w d off) := uintAt_errs hE w d off
  refine .ite (fun _ => ?_) fun _ => .ite (fun _ => ?_) fun _ => .ok _
  · exact (snapshotBit_errs hE d).bind fun _ => (hu 8 _).bind fun _ => (hu 8 _).bind fun _ => .ok _
  · exact (hu 2 _).bind fun _ => (bytes_errs hE _ _ _).bind fun _ => (hu 8 _).bind fun _ => .ok _

theorem sysChunks_errs (arr : Bytes) : ∀ fuel off chunks, Errs E (Fs.sysChunks arr fuel off chunks)
  | 0, _, _ => .ok _
  | fuel + 1, off, chunks => by
    refine .ite (fun _ => ?_) fun _ => .ok _
    exact (Key.parse_errs hE _ _).bind fun _ => (bailIf_errs hE _ _).bind fun _ =>
      (Chunk.parse_errs hE _ _).bind fun _ => sysChunks_errs arr fuel _ _

theorem sysChunkMap_errs (arr : Bytes) : Errs E (Fs.sysChunkMap arr) := by
  have h := sysChunks_errs hE arr arr.length 0 []
  unfold Fs.sysChunkMap
  split
  · exact .ok _
  · rename_i e he
    exact .error (h e he)

end parsers

/-! ## Decompression -/

section decoding

variable (hE : Error.Closed E) (X : Crates)

include hE

theorem finish_errs (out : Bytes) (size : Size) (what : String) : Errs E (finish out size what) :=
  .ite (fun _ => .error (hE.msg _)) fun _ => .ite (fun _ => .error (hE.msg _)) fun _ => .ok _

theorem stream_errs (d : Decoding) (src : Bytes) (size : Size) (what : String) :
    Errs E (stream d src size what) := by
  unfold stream
  split
  · exact .ite (fun _ => .error (hE.context (hE.undecodable _))) fun _ => finish_errs hE _ _ _
  · exact finish_errs hE _ _ _

theorem lzoLE32_errs (src : Bytes) (off : Nat) : Errs E (lzoLE32 src off) :=
  .ite (fun _ => .ok _) fun _ => .error (hE.msg _)

theorem lzoSegment_errs (src : Bytes) (size : Size) (pos segLen : Nat) :
    Errs E (lzoSegment X src size pos segLen) := by
  unfold lzoSegment
  split
  · exact .error (hE.msg _)
  · exact .error (hE.msg _)
  · exact .ite (fun _ => .error (hE.msg _)) fun _ => .ok _

theorem lzoSegments_errs (src : Bytes) (size : Size) (total : Nat) :
    ∀ fuel pos out, Errs E (lzoSegments X src size total fuel pos out)
  | 0, _, _ => .ok _
  | fuel + 1, pos, out => by
    refine .ite (fun _ => .ite (fun _ => .ok _) fun _ => ?_) fun _ => .ok _
    exact (lzoLE32_errs hE _ _).bind fun _ => (bailIf_errs hE _ _).bind fun _ =>
      (lzoSegment_errs hE X _ _ _ _).bind fun _ => lzoSegments_errs src size total fuel _ _

theorem lzo_errs (src : Bytes) (size : Size) : Errs E (lzo X src size) :=
  (lzoLE32_errs hE _ _).bind fun _ => (bailIf_errs hE _ _).bind fun _ =>
    (lzoSegments_errs hE X _ _ _ _ _ _).bind fun _ => finish_errs hE _ _ _

theorem decode_errs (algo : Nat) (src : Bytes) (ramBytes sectorsize : Nat) (inline : Bool) :
    Errs E (decode X algo src ramBytes sectorsize inline) := by
  refine (bailIf_errs hE _ _).bind fun _ => (bailIf_errs hE _ _).bind fun _ => ?_
  dsimp only
  split
  · exact stream_errs hE _ _ _ _
  · exact lzo_errs hE X _ _
  · split
    · exact .error (hE.msg _)
    · exact stream_errs hE _ _ _ _
  · exact .error (hE.msg _)

end decoding

section volume

variable (hE : Error.Closed E)

include hE

theorem Fs.mirrors_errs (fs : Fs β) (logical len : Nat) : Errs E (fs.mirrors logical len) := by
  unfold Fs.mirrors
  split
  · exact .error (hE.msg _)
  · exact .ite (fun _ => .error (hE.msg _)) fun _ =>
      .ite (fun _ => .error (hE.msg _)) fun _ => .ok _

theorem Fs.badSum_errs (fs : Fs β) (buf : Bytes) : Errs E (fs.badSum buf) :=
  .ite (fun _ => (uintAt_errs hE 4 _ _).bind fun _ => .ok _) fun _ => .ok _

end volume

/-! ## Devices -/

variable [Noting β]

/-- A note of a device's. -/
instance : Noting (FsState β) := ⟨fun s => hasNote s.dev⟩

/-- What the backing answers is in `E`, or it is noted, and stays so. -/
def Backing.Answers (E : Error → Prop) (B : Backing β) : Prop :=
  ∀ off len s r s', B.readAt off len s = (r, s') →
    (hasNote s → hasNote s') ∧ ∀ e, r = .error e → E (.io (e.at .device)) ∨ hasNote s'

theorem Backing.fill_fails {B : Backing β} (hB : B.Answers E) (start total : Nat) :
    ∀ fuel done, FailsWith (fun e => E (.io e)) (B.fill start total fuel done)
  | 0, _ => .pure _
  | fuel + 1, done => by
    have next (done : Bytes) : FailsWith (fun e => E (.io e)) (B.fill start total fuel done) :=
      fill_fails hB start total fuel done
    refine ⟨fun s hs => ?_, fun s e s' h => ?_⟩
    · by_cases hlt : done.length < total
      · rcases hr : B.readAt ((start + done.length) % 2 ^ 64) (min (total - done.length) MAX_IO) s with
          ⟨e | _ | ⟨x, xs⟩, t⟩ <;> have ht := (hB _ _ _ _ _ hr).1 hs <;>
          simp only [Backing.fill, if_pos hlt, hr]
        · split_ifs
          · exact (next done).keeps t ht
          · exact ht
        · exact ht
        · exact (next _).keeps t ht
      · simpa only [Backing.fill, if_neg hlt] using hs
    · by_cases hlt : done.length < total
      · rcases hr : B.readAt ((start + done.length) % 2 ^ 64) (min (total - done.length) MAX_IO) s with
          ⟨e' | _ | ⟨x, xs⟩, t⟩ <;> simp only [Backing.fill, if_pos hlt, hr] at h
        · split_ifs at h
          · exact (next done).errs t e s' h
          · obtain ⟨rfl, rfl⟩ := EStateM.Result.error.inj h
            exact (hB _ _ _ _ _ hr).2 e' rfl
        · cases h
        · exact (next _).errs t e s' h
      · simp only [Backing.fill, if_neg hlt] at h
        cases h

theorem Device.read_fails (hE : Error.Closed E) {d : Device β} (hd : d.backing.Answers E) (off len : Nat) :
    FailsWith (fun e => E (.io e)) (d.read off len) := by
  have htrim (done : Bytes) : Errs (fun e => E (.io e)) (d.trim off len done) :=
    .ite (fun _ => .error (hE.pastEnd _)) fun _ => .ok _
  have hread (fuel : Nat) :=
    (Backing.fill_fails hd (Device.bufStart off) (Device.bufLen off len) fuel []).bind
      fun done => FailsWith.lift (htrim done)
  refine ⟨Ensures.of_state fun s hs => ?_, fun s e s' h => ?_⟩
  · rw [Device.read_run]
    exact (hread _).keeps.state hs
  · rw [Device.read_run] at h
    exact (hread _).errs s e s' h

theorem onDev_fails {α : Type} {x : EStateM IoError β α} (hx : FailsWith (fun e => E (.io e)) x) :
    FailsWith E (onDev x) := by
  refine ⟨fun s hs => ?_, fun s e s' h => ?_⟩
  · unfold onDev
    cases hr : x s.dev with
    | ok a t => exact hx.keeps.ok hs hr
    | error e t => exact hx.keeps.error hs hr
  · unfold onDev at h
    cases hr : x s.dev with
    | ok a t => rw [hr] at h; cases h
    | error e' t =>
      rw [hr] at h
      obtain ⟨rfl, rfl⟩ := EStateM.Result.error.inj h
      exact hx.errs _ e' t hr

theorem inContext_fails {σ α : Type} [Noting σ] (hE : Error.Closed E) {text : String} {x : EStateM Error σ α}
    (hx : FailsWith E x) : FailsWith E (inContext text x) := by
  refine ⟨fun s hs => ?_, fun s e s' h => ?_⟩
  · unfold inContext
    cases hr : x s with
    | ok a t => exact hx.keeps.ok hs hr
    | error e t => exact hx.keeps.error hs hr
  · unfold inContext at h
    cases hr : x s with
    | ok a t => rw [hr] at h; cases h
    | error e' t =>
      rw [hr] at h
      obtain ⟨rfl, rfl⟩ := EStateM.Result.error.inj h
      exact (hx.errs s e' t hr).imp_left hE.context

namespace Fs

/-- What the devices answer is in `E`. -/
def Answers (E : Error → Prop) (fs : Fs β) : Prop := ∀ x ∈ fs.devs, x.2.backing.Answers E

variable {fs : Fs β} (hE : Error.Closed E) (hfs : fs.Answers E)

include hE

/-- The last mirror's error is thrown, and with none the one given. -/
theorem readMirrors_fails (len : Nat) : ∀ {ms : List (Device β × Nat)} (lastErr : Error),
    (∀ m ∈ ms, m.1.backing.Answers E) →
      FailsWith (fun e => E e ∨ e = lastErr) (readMirrors len ms lastErr)
  | [], _, _ => .throw (.inr rfl)
  | (d, phys) :: ms, lastErr, hm => by
    have hd := onDev_fails (Device.read_fails hE (hm _ List.mem_cons_self) phys len)
    refine FailsWith.mono (FailsWith.attempt hd fun r => ?_) fun _ => .inl
    cases r with
    | ok b => exact .pure _
    | error e =>
      exact (readMirrors_fails len e fun m h => hm m (List.mem_cons_of_mem _ h)).mono
        fun _ h => h.imp_right fun h => congrArg _ h.symm

theorem nodeMirrors_fails (fs : Fs β) (logical : Nat) : ∀ {ms : List (Device β × Nat)} (lastErr : Error),
    (∀ m ∈ ms, m.1.backing.Answers E) →
      FailsWith (fun e => E e ∨ e = lastErr) (fs.nodeMirrors logical ms lastErr)
  | [], _, _ => .throw (.inr rfl)
  | (d, phys) :: ms, lastErr, hm => by
    have hd := onDev_fails (Device.read_fails hE (hm _ List.mem_cons_self) phys fs.sb.nodesize)
    have next (e : Error) := nodeMirrors_fails fs logical e fun m h => hm m (List.mem_cons_of_mem _ h)
    have hmsg (text : String) : FailsWith E (fs.nodeMirrors logical ms (.msg text)) :=
      (next _).mono fun _ h => h.elim id fun h => h ▸ hE.msg text
    refine FailsWith.mono (FailsWith.attempt hd fun r => ?_) fun _ => .inl
    cases r with
    | error e => exact (next e).mono fun _ h => h.imp_right fun h => congrArg _ h.symm
    | ok buf =>
      refine FailsWith.mono ?_ fun _ => .inl
      refine (FailsWith.lift (uintAt_errs hE 8 _ _)).bind fun addr => .ite (fun _ => hmsg _) fun _ => ?_
      refine (FailsWith.lift (badSum_errs hE fs buf)).bind fun bad => .ite (fun _ => hmsg _) fun _ => ?_
      exact .ite (fun _ => .throw (hE.msg _)) fun _ => .pure _

include hfs

omit hE in
theorem mirrors_answer {logical len : Nat} {ms : List (Device β × Nat)}
    (h : fs.mirrors logical len = .ok ms) : ∀ m ∈ ms, m.1.backing.Answers E := by
  intro m hm
  obtain ⟨⟨id, hd⟩, -⟩ := mem_mirrors h m hm
  exact hfs _ hd

theorem readLogical_fails (logical len : Nat) : FailsWith E (fs.readLogical logical len) := by
  unfold readLogical
  cases h : fs.mirrors logical len with
  | error e => exact .throw (mirrors_errs hE fs logical len e h)
  | ok ms =>
    refine FailsWith.mono (readMirrors_fails hE len _ (mirrors_answer hfs h)) fun _ he => ?_
    exact he.elim id fun he => he ▸ hE.msg _

theorem fetchNode_fails (logical : Nat) : FailsWith E (fs.fetchNode logical) := by
  unfold fetchNode
  cases h : fs.mirrors logical fs.sb.nodesize with
  | error e => exact .throw (mirrors_errs hE fs logical _ e h)
  | ok ms =>
    refine FailsWith.mono (nodeMirrors_fails hE fs logical _ (mirrors_answer hfs h)) fun _ he => ?_
    exact he.elim id fun he => he ▸ hE.msg _

theorem readNode_fails (logical : Nat) : FailsWith E (fs.readNode logical) := by
  refine FailsWith.get.bind fun s => ?_
  cases s.nodes.lookup logical with
  | some n => exact .pure _
  | none => exact (fetchNode_fails hE hfs logical).bind fun _ => FailsWith.bind (.modify fun _ h => h) fun _ => .pure _

/-! ## Walks -/

omit hfs in
theorem item_errs (n : Node) (i : Nat) : Errs E (n.item i) :=
  (Key.parse_errs hE _ _).bind fun _ => (uintAt_errs hE 4 _ _).bind fun _ =>
    (uintAt_errs hE 4 _ _).bind fun _ => (bytes_errs hE _ _ _).bind fun _ => .ok _

omit hfs in
theorem ptr_errs (n : Node) (i : Nat) : Errs E (n.ptr i) :=
  (Key.parse_errs hE _ _).bind fun _ => (uintAt_errs hE 8 _ _).bind fun _ => .ok _

/-- What a visitor fails with is in `E`. -/
abbrev VisitErrs (E : Error → Prop) (visit : Visit τ) : Prop := ∀ k d t, Errs E (visit k d t)

omit hfs in
theorem visitItems_errs (n : Node) (min max : Key) {visit : Visit τ} (hv : VisitErrs E visit) :
    ∀ count i t, Errs E (n.visitItems min max visit count i t)
  | 0, _, _ => .ok _
  | count + 1, i, t => by
    have next (t : τ) := visitItems_errs n min max hv count (i + 1) t
    refine (item_errs hE n i).bind fun x => .ite (fun _ => next _) fun _ => .ite (fun _ => .ok _) fun _ => ?_
    exact (hv _ _ _).bind fun r => .ite (fun _ => next _) fun _ => .ok _

omit hfs in
theorem visitChildren_fails (n : Node) (min max : Key) {walkChild : Nat → τ → FsM β (Bool × τ)}
    (hw : ∀ p t, FailsWith E (walkChild p t)) :
    ∀ count i t, FailsWith E (n.visitChildren min max walkChild count i t)
  | 0, _, _ => .pure _
  | count + 1, i, t => by
    have next (t : τ) := visitChildren_fails n min max hw count (i + 1) t
    refine (FailsWith.lift (ptr_errs hE n i)).bind fun x => .ite (fun _ => .pure _) fun _ => ?_
    refine (FailsWith.lift (.ite (fun _ => (ptr_errs hE n _).bind fun _ => .ok _) fun _ => .ok _)).bind
      fun skip => .ite (fun _ => next t) fun _ => ?_
    exact (hw _ _).bind fun r => .ite (fun _ => next _) fun _ => .pure _

theorem walkNode_fails (min max : Key) {visit : Visit τ} (hv : VisitErrs E visit) :
    ∀ left logical expect t, FailsWith E (fs.walkNode min max visit left logical expect t)
  | 0, _, _, _ => .throw (hE.msg _)
  | left + 1, logical, expect, t => by
    refine (readNode_fails hE hfs logical).bind fun node => FailsWith.bind (.lift ?_) fun _ => ?_
    · cases expect with
      | none => exact .ok _
      | some l => exact bailIf_errs hE _ _
    · refine .ite (fun _ => .lift (visitItems_errs hE _ _ _ hv _ _ _)) fun _ => ?_
      exact visitChildren_fails hE _ _ _ (fun p t => walkNode_fails min max hv left p _ t) _ _ _

theorem walk_fails (root : Nat) (min max : Key) {visit : Visit τ} (hv : VisitErrs E visit) (t : τ) :
    FailsWith E (fs.walk root min max visit t) := walkNode_fails hE hfs min max hv 9 root none t

theorem get_fails (root : Nat) (key : Key) : FailsWith E (fs.get root key) :=
  (walk_fails hE hfs _ _ _ (fun _ _ _ => .ok _) _).bind fun _ => .pure _

/-! ## Trees, inodes and extents -/

theorem tree_fails (id : Nat) : FailsWith E (fs.tree id) := by
  have hitem : FailsWith E (fs.rootItem id) :=
    (walk_fails hE hfs _ _ _ (fun _ _ _ => .ok _) _).bind fun _ => .pure _
  have hfetch : FailsWith E (fs.fetchTree id) := by
    refine hitem.bind fun item => ?_
    cases item with
    | none => exact .throw (hE.msg _)
    | some item =>
      exact (FailsWith.lift (uintAt_errs hE 8 _ _)).bind fun _ =>
        (FailsWith.lift (uintAt_errs hE 8 _ _)).bind fun _ => .pure _
  refine FailsWith.get.bind fun s => ?_
  cases s.roots.lookup id with
  | some r => exact .pure _
  | none => exact hfetch.bind fun _ => FailsWith.bind (.modify fun _ h => h) fun _ => .pure _

theorem root_fails : FailsWith E fs.root := (tree_fails hE hfs _).bind fun _ => .pure _

theorem inode_fails (loc : Loc) : FailsWith E (fs.inode loc) := by
  refine .ite (fun _ => .pure _) fun _ => (tree_fails hE hfs _).bind fun r => ?_
  refine (get_fails hE hfs _ _).bind fun item => ?_
  cases item with
  | none => exact .throw (hE.msg _)
  | some item => exact .lift (Inode.parse_errs hE item)

theorem extents_fails (loc : Loc) : FailsWith E (fs.extents loc) :=
  (tree_fails hE hfs _).bind fun _ => (walk_fails hE hfs _ _ _
    (fun _ _ _ => (Extent.parse_errs hE _ _).bind fun _ => .ok _) _).bind fun _ => .pure _

theorem layout_fails (loc : Loc) : FailsWith E (fs.layout loc) :=
  (inode_fails hE hfs loc).bind fun _ => (extents_fails hE hfs loc).bind fun _ => .pure _

theorem compressedExtent_fails (addr n algo ramBytes : Nat) :
    FailsWith E (fs.compressedExtent addr n algo ramBytes) := by
  have hplain : FailsWith E (fs.decompressExtent addr n algo ramBytes) :=
    (FailsWith.lift (bailIf_errs hE _ _)).bind fun _ => (readLogical_fails hE hfs _ _).bind fun _ =>
      .lift (decode_errs hE _ _ _ _ _ _)
  refine FailsWith.get.bind fun s => ?_
  cases cachedExtent addr s with
  | some data => exact .pure _
  | none => exact hplain.bind fun _ => FailsWith.bind (.modify fun _ h => h) fun _ => .pure _

/-! ## File reads -/

variable [Noting τ] {sink : Sink τ} (hsink : ∀ p, FailsWith E (sink p))

omit hE hfs in
include hsink in
theorem emit_fails (stop lo hi pos : Nat) {data : Option (Reader β)}
    (hd : ∀ read ∈ data, ∀ pos n, FailsWith E (read pos n)) :
    FailsWith E (emit sink stop lo hi pos data) := by
  have hdata (read : Reader β) (hr : ∀ pos n, FailsWith E (read pos n)) (hi : Nat) :
      ∀ fuel pos, FailsWith E (emitData sink read hi fuel pos) := by
    intro fuel
    induction fuel with
    | zero => exact fun _ => .pure _
    | succ fuel ih =>
      intro pos
      refine .ite (fun _ => ?_) fun _ => .pure _
      exact (FailsWith.onFst (hr _ _)).bind fun _ => (FailsWith.onSnd (hsink _)).bind fun _ => ih _
  refine .ite (fun _ => .pure _) fun _ => ?_
  refine (FailsWith.ite (fun _ => .onSnd (hsink _)) fun _ => .pure _).bind fun _ => ?_
  refine FailsWith.bind ?_ fun _ => .pure _
  cases data with
  | none => exact .onSnd (hsink _)
  | some read => exact hdata read (hd read rfl) _ _ _

include hsink

theorem emitExtent_fails (stop : Nat) (e : Extent) (pos : Nat) :
    FailsWith E (fs.emitExtent sink stop e pos) := by
  have hnone (stop lo hi pos : Nat) : FailsWith E (emit sink stop lo hi pos (none : Option (Reader β))) :=
    emit_fails hsink stop lo hi pos nofun
  have hsome {read : Reader β} (h : ∀ pos n, FailsWith E (read pos n)) (stop lo hi pos : Nat) :
      FailsWith E (emit sink stop lo hi pos (some read)) :=
    emit_fails hsink stop lo hi pos (by rintro _ ⟨⟩; exact h)
  unfold emitExtent
  cases e.kind with
  | prealloc => exact hnone _ _ _ _
  | inline raw =>
    refine (FailsWith.lift ((bailIf_errs hE _ _).bind fun _ => ?_)).bind fun plain =>
      hsome (fun _ _ => .pure _) _ _ _ _
    exact .ite (fun _ => .ok _) fun _ => decode_errs hE _ _ _ _ _ _
  | regular a n off =>
    refine .ite (fun _ => hnone _ _ _ _) fun _ => .ite (fun _ => ?_) fun _ => ?_
    · cases checkedAdd a off with
      | none => exact .throw (hE.msg _)
      | some base =>
        refine hsome (fun pos n => ?_) _ _ _ _
        unfold readPlain
        cases checkedAdd base (pos - e.fileOff) with
        | none => exact .throw (hE.msg _)
        | some addr => exact readLogical_fails hE hfs _ _
    · refine (FailsWith.onFst (compressedExtent_fails hE hfs _ _ _ _)).bind fun plain => ?_
      exact hsome (fun _ _ => .ite (fun _ => .pure _) fun _ => .throw (hE.msg _)) _ _ _ _

theorem emitExtents_fails (stop : Nat) :
    ∀ exts pos, FailsWith E (fs.emitExtents sink stop exts pos)
  | [], _ => .pure _
  | e :: exts, pos => by
    refine .ite (fun _ => .pure _) fun _ => .ite (fun _ => emitExtents_fails stop exts pos) fun _ => ?_
    exact (emitExtent_fails hE hfs hsink stop e pos).bind fun _ => emitExtents_fails stop exts _

theorem readRange_fails (loc : Loc) (start stop : Nat) : FailsWith E (fs.readRange loc start stop sink) := by
  refine (FailsWith.onFst (layout_fails hE hfs loc)).bind fun r => ?_
  refine (emitExtents_fails hE hfs hsink _ _ _).bind fun pos => ?_
  have htail : FailsWith E (emit sink (min stop r.1.size) pos (min stop r.1.size) pos
      (none : Option (Reader β))) := emit_fails hsink _ _ _ _ nofun
  exact htail.bind fun _ => .pure _

omit hsink

theorem readSymlinkTarget_fails (loc : Loc) : FailsWith E (fs.readSymlinkTarget loc) := by
  refine (inode_fails hE hfs loc).bind fun i => (FailsWith.lift (bailIf_errs hE _ _)).bind fun _ => ?_
  -- the pieces are collected, and of those there is no note
  let : Noting Bytes := .never
  have hcollect (p : Piece) : FailsWith E (collect p) := .modify fun _ h => h
  have hread : FailsWith E (fs.readRange loc 0 i.size collect) :=
    readRange_fails hE hfs hcollect loc 0 i.size
  exact (hread.withLocal (fun _ h => h) []).bind fun _ => .pure _

/-! ## Directories and paths -/

theorem isSnapshot_fails (id : Nat) : FailsWith E (fs.isSnapshot id) :=
  (walk_fails hE hfs _ _ _ (fun _ d _ => (snapshotBit_errs hE d).bind fun _ => .ok _) _).bind
    fun _ => .pure _

theorem entry_fails (dir : Loc) (e : DirEntry) : FailsWith E (fs.entry dir e) := by
  refine .ite (fun _ => .pure _) fun _ => (get_fails hE hfs _ _).bind fun link => ?_
  cases link with
  | none => exact .pure _
  | some _ => exact (tree_fails hE hfs _).bind fun _ => .pure _

theorem lookup_fails (dir : Loc) (name : Bytes) : FailsWith E (fs.lookup dir name) := by
  refine .ite (fun _ => .pure _) fun _ => (tree_fails hE hfs _).bind fun r => ?_
  refine (get_fails hE hfs _ _).bind fun item => ?_
  cases item with
  | none => exact .pure _
  | some item =>
    refine (FailsWith.lift (parseDirEntries_errs hE item)).bind fun es => ?_
    cases es.find? _ with
    | none => exact .pure _
    | some e => exact (entry_fails hE hfs dir e).bind fun _ => .pure _

theorem readdir_fails (dir : Loc) : FailsWith E (fs.readdir dir) := by
  have hentries : FailsWith E (fs.dirEntries dir) :=
    (tree_fails hE hfs _).bind fun _ => (walk_fails hE hfs _ _ _
      (fun _ d _ => (parseDirEntries_errs hE d).bind fun _ => .ok _) _).bind fun _ => .pure _
  refine .ite (fun _ => .pure _) fun _ => hentries.bind fun raw => ?_
  exact (FailsWith.mapEach (entry_fails hE hfs dir) raw).bind fun _ => .pure _

theorem checkDir_fails (dir : Loc) (walked : Text) : FailsWith E (fs.checkDir dir walked) := by
  refine .ite (fun _ => .pure _) fun _ => (inode_fails hE hfs dir).bind fun i => ?_
  refine .ite (fun _ => ?_) fun _ => .lift (bailIf_errs hE _ _)
  exact (readSymlinkTarget_fails hE hfs dir).bind fun _ => .throw (hE.msg _)

theorem resolveFrom_fails : ∀ parts dir above walked, FailsWith E (fs.resolveFrom parts dir above walked)
  | [], _, _, _ => .pure _
  | part :: parts, dir, above, walked => by
    unfold resolveFrom
    refine .ite (fun _ => ?_) fun _ => ?_
    · cases above with
      | nil => exact resolveFrom_fails parts _ _ _
      | cons parent above => exact resolveFrom_fails parts _ _ _
    · refine (checkDir_fails hE hfs dir walked).bind fun _ => (lookup_fails hE hfs dir _).bind fun e => ?_
      cases e with
      | none => exact .throw (hE.notFound _)
      | some e => exact resolveFrom_fails parts _ _ _

theorem resolve_fails (path : Text) : FailsWith E (fs.resolve path) :=
  (root_fails hE hfs).bind fun _ => resolveFrom_fails hE hfs _ _ _ _

theorem describe_fails (loc : Loc) (path : Text) (subvol : Bool) :
    FailsWith E (fs.describe loc path subvol) := by
  refine (inode_fails hE hfs loc).bind fun i => .ite (fun _ => ?_) fun _ => .pure _
  exact (readSymlinkTarget_fails hE hfs loc).bind fun _ => .pure _

theorem stat_fails (loc : Loc) (path : Text) : FailsWith E (fs.stat loc path) :=
  (describe_fails hE hfs _ _ _).bind fun _ => (extents_fails hE hfs _).bind fun _ => .pure _

/-! ## Subvolumes -/

theorem defaultSubvol_fails : FailsWith E fs.defaultSubvol := by
  refine (get_fails hE hfs _ _).bind fun item => ?_
  cases item with
  | none => exact .pure _
  | some item => exact (FailsWith.lift (parseDirEntries_errs hE item)).bind fun _ => .pure _

theorem climb_fails (tree : Nat) (root : TreeRoot) :
    ∀ left ino parts, FailsWith E (fs.climb tree root left ino parts)
  | 0, _, _ => .ite (fun _ => .pure _) fun _ => .throw (hE.msg _)
  | left + 1, ino, parts => by
    have href : FailsWith E (fs.parentRef root ino) :=
      (walk_fails hE hfs _ _ _ (fun _ _ _ => (uintAt_errs hE 2 _ _).bind fun _ =>
        (bytes_errs hE _ _ _).bind fun _ => .ok _) _).bind fun _ => .pure _
    refine .ite (fun _ => .pure _) fun _ => href.bind fun ref => ?_
    cases ref with
    | none => exact .throw (hE.msg _)
    | some ref => exact climb_fails tree root left _ _

theorem placeAll_fails (backrefs : List (Nat × Backref)) :
    ∀ its p, FailsWith E (fs.placeAll backrefs its p)
  | [], _ => .pure _
  | it :: its, p => by
    have next (p : Placed) := placeAll_fails backrefs its p
    unfold placeAll
    cases backrefs.lookup it.id with
    | none => exact next p
    | some ref =>
      dsimp only
      cases p.paths.lookup ref.parent with
      | none => exact (next p).bind fun _ => .pure _
      | some parentPath =>
        exact ((tree_fails hE hfs _).bind fun _ => (climb_fails hE hfs _ _ _ _ _).bind fun _ =>
          .pure _).bind fun _ => next _

theorem placePasses_fails (backrefs : List (Nat × Backref)) :
    ∀ fuel pending p, FailsWith E (fs.placePasses backrefs fuel pending p)
  | 0, _, _ => .pure _
  | fuel + 1, pending, p => by
    refine .ite (fun _ => .pure _) fun _ => (placeAll_fails hE hfs _ _ _).bind fun r => ?_
    exact .ite (fun _ => .pure _) fun _ => placePasses_fails backrefs fuel _ _

theorem subvols_fails : FailsWith E fs.subvols :=
  (walk_fails hE hfs _ _ _ (RootItems.visit_errs hE) _).bind fun _ =>
    (placePasses_fails hE hfs _ _ _ _).bind fun _ => .pure _

omit hfs

/-! ## Opening -/

/-- What an opener answers is in `E`, or it is noted, and so it is with the devices it opens. -/
def OpenAnswers (E : Error → Prop) (opener : Opener β) : Prop :=
  ∀ path s r s', opener path s = (r, s') →
    (hasNote s → hasNote s') ∧ (∀ e, r = .error e → E (.io (e.at .device)) ∨ hasNote s') ∧
      ∀ B, r = .ok B → B.Answers E

variable (p : Platform) (X : Crates) {opener : Opener β} (hopen : OpenAnswers E opener)

include hopen

omit hE in
theorem openDevice_ok {path : String} {d : Device β} {s s' : FsState β}
    (h : openDevice p opener path s = .ok d s') : d.backing.Answers E := by
  unfold openDevice Device.open at h
  rcases hr : opener path s.dev with ⟨_ | B, t⟩ <;> rw [hr] at h
  · cases h
  · rw [← (EStateM.Result.ok.inj h).1]
    exact (hopen path s.dev _ _ hr).2.2 B rfl

theorem openDevice_fails (path : String) : FailsWith E (openDevice p opener path) := by
  refine ⟨fun s hs => ?_, fun s e s' h => ?_⟩
  · unfold openDevice Device.open
    rcases hr : opener path s.dev with ⟨_ | B, t⟩ <;> exact (hopen path s.dev _ _ hr).1 hs
  · unfold openDevice Device.open at h
    rcases hr : opener path s.dev with ⟨e' | B, t⟩ <;> rw [hr] at h
    · obtain ⟨rfl, rfl⟩ := EStateM.Result.error.inj h
      unfold openError
      split_ifs
      · exact .inl (hE.context hE.accessDenied)
      · exact ((hopen path s.dev _ _ hr).2.1 e' rfl).imp_left hE.context
    · cases h

omit hE in
/-- Devices are opened one by one, and those that were answer what is in `E`. -/
theorem openDevices_ok : ∀ {paths : List String} {o o' : Opened β} {s s' : FsState β},
    (∀ x ∈ o.devs, x.2.backing.Answers E) → openDevices p X opener paths o s = .ok o' s' →
      ∀ x ∈ o'.devs, x.2.backing.Answers E
  | [], o, _, _, _, ho, h => by
    rw [← (EStateM.Result.ok.inj h).1]
    exact ho
  | path :: paths, o, _, _, _, ho, h => by
    obtain ⟨dev, s₁, hdev, h⟩ := bind_ok_iff.mp h
    obtain ⟨raw, s₂, -, h⟩ := bind_ok_iff.mp h
    obtain ⟨sb, s₃, -, h⟩ := bind_ok_iff.mp h
    obtain ⟨-, s₄, -, h⟩ := bind_ok_iff.mp h
    refine openDevices_ok (fun x hx => ?_) h
    rcases List.mem_cons.mp hx with rfl | hx
    · exact openDevice_ok p hopen hdev
    · exact ho x hx

theorem openDevices_fails : ∀ (paths : List String) (o : Opened β),
    FailsWith E (openDevices p X opener paths o)
  | [], o => .pure o
  | path :: paths, o => by
    refine FailsWith.bind_of (openDevice_fails hE p hopen path) (fun _ _ _ h => openDevice_ok p hopen h)
      fun dev hdev => ?_
    have hsuper : FailsWith E
        (inContext s!"{path}: reading superblock" (onDev (dev.read SUPER_OFFSET SUPER_SIZE))) :=
      inContext_fails hE (onDev_fails (Device.read_fails hE hdev _ _))
    refine hsuper.bind fun raw => ?_
    refine (FailsWith.lift ((Superblock.parse_errs hE X raw).mapError fun _ h => hE.context h)).bind fun sb => ?_
    exact (FailsWith.lift (bailIf_errs hE _ _)).bind fun _ => openDevices_fails paths (addDevice dev sb o)

omit hE in
theorem open_ok {paths : List String} {fs : Fs β} {s s' : FsState β}
    (h : Fs.open p X opener paths s = .ok fs s') : fs.Answers E := by
  obtain ⟨-, s₁, -, h⟩ := bind_ok_iff.mp h
  obtain ⟨o, s₂, ho, h⟩ := bind_ok_iff.mp h
  have hdevs := openDevices_ok p X hopen (fun _ hx => absurd hx List.not_mem_nil) ho
  cases hbest : o.best with
  | none =>
    rw [hbest] at h
    cases h
  | some sb =>
    rw [hbest] at h
    obtain ⟨-, s₃, -, h⟩ := bind_ok_iff.mp h
    obtain ⟨chunks, s₄, -, h⟩ := bind_ok_iff.mp h
    obtain ⟨found, s₅, -, h⟩ := bind_ok_iff.mp h
    rw [← (EStateM.Result.ok.inj h).1]
    exact hdevs

theorem open_fails (paths : List String) : FailsWith E (Fs.open p X opener paths) := by
  refine (FailsWith.lift (bailIf_errs hE _ _)).bind fun _ => ?_
  refine FailsWith.bind_of (openDevices_fails hE p X hopen paths _)
    (fun _ _ _ h => openDevices_ok p X hopen (fun _ hx => absurd hx List.not_mem_nil) h) fun o ho => ?_
  cases o.best with
  | none => exact .throw (hE.msg _)
  | some sb =>
    refine (FailsWith.lift (bailIf_errs hE _ _)).bind fun _ => ?_
    refine (FailsWith.lift (sysChunkMap_errs hE _)).bind fun chunks => ?_
    have hfs : Fs.Answers E ⟨X, o.devs, sb, chunks.1, chunks.2⟩ := ho
    refine FailsWith.bind (inContext_fails hE ?_) fun _ => .pure _
    refine (walk_fails hE hfs _ _ _ (fun k d t => ?_) _).bind fun _ => .pure _
    exact .ite (fun _ => (Chunk.parse_errs hE _ _).bind fun _ => .ok _) fun _ => .ok _

end Fs

end BtrfsPeek
