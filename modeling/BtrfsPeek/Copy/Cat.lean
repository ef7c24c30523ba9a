import BtrfsPeek.Copy.Copier
import BtrfsPeek.Fs.Paths
import BtrfsPeek.Fs.Pieces
import BtrfsPeek.Fs.Slice
import BtrfsPeek.Lib.SparseFile

/-!
# What is made of a file's pieces

Three sinks take what a range read hands on: `cat` of `main.rs` writes it out, a copy
writes a file with holes, and `Fs.readToVec` collects. On any image they come to the same
bytes (`Copier.sparse_copy_is_plain`).
-/

namespace BtrfsPeek

open Effect SparseFile

variable {β η φ ω : Type}

/-! ## `cat` -/

/-- Standard output. -/
structure Stdout (ω : Type) where
  writeAll : Bytes → HostOp ω Unit
  flush : HostOp ω Unit

def stdoutCall (x : HostOp ω Unit) : EStateM Error ω Unit := fun o =>
  match x o with
  | .ok a o => .ok a o
  | .error e o => .error (.io (e.at .stdout)) o

/-- Zeros, in blocks of at most 64 KiB. -/
def writeZeros (out : Stdout ω) : (blocks : Nat) → (left : Nat) → EStateM Error ω Unit
  | 0, _ => pure ()
  | blocks + 1, left =>
    if left > 0 then do
      let k := min left 65536
      stdoutCall (out.writeAll (List.replicate k 0))
      writeZeros out blocks (left - k)
    else pure ()

def catPiece (out : Stdout ω) : Sink ω
  | .data d => stdoutCall (out.writeAll d)
  | .zeros n => writeZeros out (n / 65536 + 1) n

namespace Fs

variable (fs : Fs β)

/-- What `cat` does with a file it has found. -/
def catRange (out : Stdout ω) (loc : Loc) (start stop : Nat) : EStateM Error (FsState β × ω) Unit := do
  fs.readRange loc start stop (catPiece out)
  onSnd (stdoutCall out.flush)

def cat (out : Stdout ω) (path : Text) (offset : Nat) (length : Option Nat) :
    EStateM Error (FsState β × ω) Unit := do
  let loc ← onFst (fs.resolve path)
  let i ← onFst (fs.inode loc)
  lift (bailIf (i.isDir = true) (.msg s!"{String.ofList path} is a directory"))
  fs.catRange out loc offset (length.elim U64_MAX (satAdd offset))

end Fs

/-- What is written goes after what was written. -/
structure Stdout.Appends (out : Stdout ω) (written : ω → Bytes) : Prop where
  writeAll {d : Bytes} {o o' : ω} : out.writeAll d o = .ok () o' → written o' = written o ++ d
  flush {o o' : ω} : out.flush o = .ok () o' → written o' = written o

theorem stdoutCall_ok {x : HostOp ω Unit} {o o' : ω} (h : stdoutCall x o = .ok () o') :
    x o = .ok () o' := by
  unfold stdoutCall at h
  cases hx : x o with
  | error e o₁ =>
    rw [hx] at h
    exact nomatch h
  | ok a o₁ =>
    rw [hx] at h
    obtain ⟨-, rfl⟩ := EStateM.Result.ok.inj h
    rfl

section cat

variable {out : Stdout ω} {written : ω → Bytes} (hout : out.Appends written)

include hout

theorem writeZeros_written : ∀ {blocks left : Nat} {o o' : ω}, left ≤ 65536 * blocks →
    writeZeros out blocks left o = .ok () o' → written o' = written o ++ List.replicate left 0
  | 0, left, o, o', hle, h => by
    obtain rfl : o = o' := (EStateM.Result.ok.inj h).2
    obtain rfl : left = 0 := by omega
    exact (List.append_nil _).symm
  | blocks + 1, left, o, o', hle, h => by
    unfold writeZeros at h
    split_ifs at h with hleft
    · obtain ⟨⟨⟩, o₁, hw, h⟩ := bind_ok_iff.mp h
      rw [writeZeros_written (by omega) h, hout.writeAll (stdoutCall_ok hw), List.append_assoc,
        List.replicate_append_replicate]
      congr 2
      omega
    · obtain rfl : o = o' := (EStateM.Result.ok.inj h).2
      obtain rfl : left = 0 := by omega
      exact (List.append_nil _).symm

theorem catPiece_written {p : Piece} {o o' : ω} (h : catPiece out p o = .ok () o') :
    written o' = written o ++ p.bytes := by
  cases p with
  | data d => exact hout.writeAll (stdoutCall_ok h)
  | zeros n => exact writeZeros_written hout (by omega) h

theorem catPieces_written : ∀ {ps : List Piece} {o o' : ω}, forEach (catPiece out) ps o = .ok () o' →
    written o' = written o ++ Piece.all ps
  | [], o, o', h => by
    obtain rfl : o = o' := (EStateM.Result.ok.inj h).2
    exact (List.append_nil _).symm
  | p :: ps, o, o', h => by
    obtain ⟨⟨⟩, o₁, hp, h⟩ := bind_ok_iff.mp h
    rw [catPieces_written h, catPiece_written hout hp, List.append_assoc]
    rfl

end cat

/-! ## A file with holes -/

/-- The host's files read as what is written to them. A name that is created is opened as
an empty file, and what is read under it then is what was written to the file. -/
structure HostFs.KeepsFiles (H : HostFs η φ) (name : φ → HostPath) (content : η → HostPath → Bytes)
    (pos : η → φ → Nat) : Prop where
  create {path : HostPath} {f : φ} {h h' : η} : H.create path h = .ok f h' →
    name f = path ∧ content h' path = [] ∧ pos h' f = 0
  writeAll {f : φ} {d : Bytes} {h h' : η} : H.writeAll f d h = .ok () h' →
    content h' (name f) = overwrite 0 (content h (name f)) (pos h f) d ∧ pos h' f = pos h f + d.length
  seek {f : φ} {n : Nat} {h h' : η} : H.seek f n h = .ok () h' →
    content h' (name f) = content h (name f) ∧ pos h' f = pos h f + n
  setLen {f : φ} {n : Nat} {h h' : η} : H.setLen f n h = .ok () h' →
    content h' (name f) = resize 0 (content h (name f)) n
  setPermissions {f : φ} {mode : Nat} {h h' : η} : H.setPermissions f mode h = .ok () h' →
    content h' (name f) = content h (name f)
  syncAll {f : φ} {h h' : η} : H.syncAll f h = .ok () h' → content h' (name f) = content h (name f)

theorem hostCall_ok {α : Type} {wrap : OsError → Error} {x : HostOp η α} {w w' : Work η} {a : α}
    (h : hostCall wrap x w = .ok a w') : x w.host = .ok a w'.host := by
  unfold hostCall at h
  cases hx : x w.host with
  | error e t =>
    rw [hx] at h
    exact nomatch h
  | ok b t =>
    rw [hx] at h
    obtain ⟨rfl, rfl⟩ := EStateM.Result.ok.inj h
    rfl

namespace Copier

variable {c : Copier β η φ} {name : φ → HostPath} {content : η → HostPath → Bytes}
  {pos : η → φ → Nat} (hfiles : c.host.KeepsFiles name content pos)

include hfiles

/-- The steps of a seek come to the length of the hole. -/
theorem seekPast_moves {f : φ} : ∀ {steps left : Nat} {w w' : Work η}, left ≤ (2 ^ 63 - 1) * steps →
    c.seekPast f steps left w = .ok () w' → content w'.host (name f) = content w.host (name f) ∧
      pos w'.host f = pos w.host f + left
  | 0, left, w, w', hle, h => by
    obtain rfl : w = w' := (EStateM.Result.ok.inj h).2
    exact ⟨rfl, by omega⟩
  | steps + 1, left, w, w', hle, h => by
    unfold seekPast at h
    split_ifs at h with hleft
    · obtain ⟨⟨⟩, w₁, hseek, h⟩ := bind_ok_iff.mp h
      obtain ⟨hc, hp⟩ := hfiles.seek (hostCall_ok hseek)
      obtain ⟨hc', hp'⟩ := seekPast_moves (by omega) h
      refine ⟨hc'.trans hc, ?_⟩
      omega
    · obtain rfl : w = w' := (EStateM.Result.ok.inj h).2
      exact ⟨rfl, by omega⟩

/-- A piece goes after what the file stands for. -/
theorem writePiece_stands {f : φ} {b : Bytes} {p : Piece} {w w' : Work η}
    (hw : StandsFor 0 (content w.host (name f)) (pos w.host f) b)
    (h : c.writePiece f p w = .ok () w') :
    StandsFor 0 (content w'.host (name f)) (pos w'.host f) (b ++ p.bytes) := by
  cases p with
  | data d =>
    obtain ⟨hc, hp⟩ := hfiles.writeAll (hostCall_ok h)
    rw [hc, hp]
    exact hw.write d
  | zeros n =>
    obtain ⟨hc, hp⟩ := seekPast_moves hfiles (by omega) h
    rw [hc, hp]
    exact hw.skip n

theorem writePieces_stands {f : φ} : ∀ {ps : List Piece} {b : Bytes} {w w' : Work η},
    StandsFor 0 (content w.host (name f)) (pos w.host f) b →
    forEach (c.writePiece f) ps w = .ok () w' →
    StandsFor 0 (content w'.host (name f)) (pos w'.host f) (b ++ Piece.all ps)
  | [], b, w, w', hw, h => by
    obtain rfl : w = w' := (EStateM.Result.ok.inj h).2
    rwa [show Piece.all [] = [] from rfl, List.append_nil]
  | p :: ps, b, w, w', hw, h => by
    obtain ⟨⟨⟩, w₁, hp, h⟩ := bind_ok_iff.mp h
    have := writePieces_stands (writePiece_stands hfiles hw hp) h
    rwa [List.append_assoc] at this

end Copier

theorem onSnd_ok {α : Type} {x : EStateM Error η α} {s s' : FsState β} {t t' : η} {a : α}
    (h : onSnd x (s, t) = .ok a (s', t')) : x t = .ok a t' ∧ s = s' := by
  unfold onSnd at h
  dsimp only at h
  cases hx : x t with
  | error e t₁ =>
    rw [hx] at h
    exact nomatch h
  | ok b t₁ =>
    rw [hx] at h
    obtain ⟨rfl, hst⟩ := EStateM.Result.ok.inj h
    obtain ⟨rfl, rfl⟩ := Prod.mk.inj hst
    exact ⟨rfl, rfl⟩

namespace Copier

variable {c : Copier β η φ} {name : φ → HostPath} {content : η → HostPath → Bytes}
  {pos : η → φ → Nat} (hfiles : c.host.KeepsFiles name content pos)

include hfiles

/-- A file that is written holds the pieces, if its length is theirs. -/
theorem writeFile_content {loc : Loc} {i : Inode} {tmp : HostPath} {s s' : FsState β}
    {w w' : Work η} (h : c.writeFile loc i tmp (s, w) = .ok () (s', w')) : ∃ ps s₁,
    c.fs.readRange loc 0 U64_MAX Op.keep (s, []) = .ok () (s₁, ps) ∧
    (Piece.total ps = i.size → content w'.host tmp = Piece.all ps) := by
  obtain ⟨file, ⟨s₁, w₁⟩, hcreate, hrun⟩ := bind_ok_iff.mp h
  obtain ⟨⟨⟩, ⟨s₂, w₂⟩, hread, hrest⟩ := bind_ok_iff.mp hrun
  obtain ⟨⟨⟩, ⟨s₃, w₃⟩, hlen, hend⟩ := bind_ok_iff.mp hrest
  obtain ⟨hfile, rfl⟩ := onSnd_ok hcreate
  obtain ⟨hname, hempty, hzero⟩ := hfiles.create (hostCall_ok hfile)
  obtain ⟨ps, hkeep, hpieces⟩ := c.fs.readRange_follows _ loc 0 U64_MAX s w₁ () s₂ w₂ hread
  refine ⟨ps, s₂, hkeep [], fun htotal => ?_⟩
  have hstart : StandsFor 0 (content w₁.host (name file)) (pos w₁.host file) [] := by
    rw [hname, hempty, hzero]
    exact standsFor_nil
  have hstands := writePieces_stands hfiles hstart hpieces
  have hset := hfiles.setLen (hostCall_ok (onSnd_ok hlen).1)
  have hsame : content w'.host (name file) = content w₃.host (name file) := by
    split_ifs at hend with hunix
    · obtain ⟨⟨⟩, ⟨s₄, w₄⟩, hmode, hsync⟩ := bind_ok_iff.mp hend
      rw [hfiles.syncAll (hostCall_ok (onSnd_ok hsync).1)]
      exact hfiles.setPermissions (hostCall_ok (onSnd_ok hmode).1)
    · exact hfiles.syncAll (hostCall_ok (onSnd_ok hend).1)
  rw [← hname, hsame, hset, ← htotal, Piece.total, ← Piece.length_all]
  exact hstands.resize_eq

end Copier

/-- Past the file's end it does not matter up to where it is read. -/
theorem Fs.readRange_of_size_le {fs : Fs β} {loc : Loc} {start stop stop' : Nat} {s s₁ : FsState β}
    {i : Inode} (hi : fs.inode loc s = .ok i s₁) (h : i.size ≤ stop) (h' : i.size ≤ stop')
    {τ : Type} (sink : Sink τ) (t : τ) :
    fs.readRange loc start stop sink (s, t) = fs.readRange loc start stop' sink (s, t) := by
  have hlayout : ∀ r s', onFst (fs.layout loc) (s, t) = .ok r s' → r.1 = i := by
    rintro ⟨j, exts⟩ ⟨s', t'⟩ hrun
    obtain ⟨hrun, -⟩ := onFst_ok hrun
    obtain ⟨j', s₂, hj, hrun⟩ := bind_ok_iff.mp hrun
    obtain ⟨exts', s₃, -, hrun⟩ := bind_ok_iff.mp hrun
    rw [hi] at hj
    rw [(EStateM.Result.ok.inj hj).1]
    exact ((Prod.mk.inj (EStateM.Result.ok.inj hrun).1).1).symm
  unfold readRange
  cases hl : onFst (fs.layout loc) (s, t) with
  | error e st => rw [bind_of_error hl, bind_of_error hl]
  | ok r st =>
    rw [bind_of_ok hl, bind_of_ok hl]
    dsimp only
    rw [hlayout r st hl, Nat.min_eq_right h, Nat.min_eq_right h']

/-- What `cat` writes of a file are its pieces. -/
theorem Fs.catRange_written {fs : Fs β} {out : Stdout ω} {written : ω → Bytes}
    (hout : out.Appends written) {loc : Loc} {start stop : Nat} {s s' : FsState β} {o o' : ω}
    (h : fs.catRange out loc start stop (s, o) = .ok () (s', o')) : ∃ ps s₁,
    fs.readRange loc start stop Op.keep (s, []) = .ok () (s₁, ps) ∧
    written o' = written o ++ Piece.all ps := by
  obtain ⟨⟨⟩, ⟨s₁, o₁⟩, hread, hflush⟩ := bind_ok_iff.mp h
  obtain ⟨ps, hkeep, hpieces⟩ := fs.readRange_follows _ loc start stop s o () s₁ o₁ hread
  refine ⟨ps, s₁, hkeep [], ?_⟩
  rw [hout.flush (stdoutCall_ok (onSnd_ok hflush).1)]
  exact catPieces_written hout hpieces

/-- So are the bytes that are collected. -/
theorem Fs.readToVec_pieces {fs : Fs β} {loc : Loc} {cap : Nat} {s s' : FsState β} {v : Bytes}
    (h : fs.readToVec loc cap s = .ok v s') : ∃ ps s₁,
    fs.readRange loc 0 cap Op.keep (s, []) = .ok () (s₁, ps) ∧ v = Piece.all ps := by
  obtain ⟨⟨⟨⟩, b⟩, s₁, hread, h⟩ := bind_ok_iff.mp h
  obtain ⟨rfl, -⟩ := EStateM.Result.ok.inj h
  unfold withLocal at hread
  cases hrun : fs.readRange loc 0 cap collect (s, []) with
  | error e st =>
    rw [hrun] at hread
    exact nomatch hread
  | ok u st =>
    obtain ⟨s₂, b'⟩ := st
    rw [hrun] at hread
    obtain ⟨hb, -⟩ := EStateM.Result.ok.inj hread
    obtain rfl : b' = b := (Prod.mk.inj hb).2
    obtain ⟨ps, hkeep, hpieces⟩ := fs.readRange_follows _ loc 0 cap s [] () s₂ b' hrun
    exact ⟨ps, s₂, hkeep [], collect_all hpieces⟩

/-- On any image, the lengths of the pieces of a range read add up to what the file has of
the range, and a copy, `cat` and `Fs.readToVec` make the same bytes of them, as many as the
inode says. -/
theorem Copier.sparse_copy_is_plain {c : Copier β η φ} {name : φ → HostPath}
    {content : η → HostPath → Bytes} {pos : η → φ → Nat}
    (hfiles : c.host.KeepsFiles name content pos) {out : Stdout ω} {written : ω → Bytes}
    (hout : out.Appends written) {loc : Loc} {s s₁ : FsState β} {i : Inode}
    (hi : c.fs.inode loc s = .ok i s₁) :
    (∀ start stop ps s', c.fs.readRange loc start stop Op.keep (s, []) = .ok () (s', ps) →
      Piece.total ps = min stop i.size - start) ∧
    (∀ ps s', c.fs.readRange loc 0 U64_MAX Op.keep (s, []) = .ok () (s', ps) → Piece.total ps = i.size) ∧
    ∃ b : Bytes, b.length = i.size ∧
      (∀ tmp w s' w', c.writeFile loc i tmp (s, w) = .ok () (s', w') → content w'.host tmp = b) ∧
      (∀ o s' o', c.fs.catRange out loc 0 U64_MAX (s, o) = .ok () (s', o') →
        written o' = written o ++ b) ∧
      ∀ cap v s', i.size ≤ cap → c.fs.readToVec loc cap s = .ok v s' → v = b := by
  have hsize : i.size ≤ U64_MAX := by
    have : i.size < 2 ^ 64 := Fs.size_lt (show Result.value (c.fs.inode loc s) = .ok i by rw [hi]; rfl)
    exact Nat.le_sub_one_of_lt this
  have htotal {ps : List Piece} {s' : FsState β}
      (h : c.fs.readRange loc 0 U64_MAX Op.keep (s, []) = .ok () (s', ps)) : Piece.total ps = i.size := by
    rw [c.fs.total_of_readRange hi h, Nat.min_eq_right hsize, Nat.sub_zero]
  -- The pieces are decided by the image, and so are their bytes.
  have hbytes : ∃ b : Bytes, b.length = i.size ∧ ∀ ps s',
      c.fs.readRange loc 0 U64_MAX Op.keep (s, []) = .ok () (s', ps) → Piece.all ps = b := by
    cases hkeep : c.fs.readRange loc 0 U64_MAX Op.keep (s, []) with
    | error e st => exact ⟨List.replicate i.size 0, List.length_replicate, fun _ _ h => nomatch h⟩
    | ok u st =>
      refine ⟨Piece.all st.2, (Piece.length_all _).trans (htotal hkeep), fun ps s' h => ?_⟩
      rw [(EStateM.Result.ok.inj h).2]
  obtain ⟨b, hlength, hb⟩ := hbytes
  refine ⟨fun start stop ps s' h => c.fs.total_of_readRange hi h, fun ps s' h => htotal h, b, hlength,
    ?_, ?_, ?_⟩
  · intro tmp w s' w' h
    obtain ⟨ps, s₂, hkeep, hcontent⟩ := writeFile_content hfiles h
    rw [hcontent (htotal hkeep), hb ps s₂ hkeep]
  · intro o s' o' h
    obtain ⟨ps, s₂, hkeep, hwritten⟩ := Fs.catRange_written hout h
    rw [hwritten, hb ps s₂ hkeep]
  · intro cap v s' hcap h
    obtain ⟨ps, s₂, hkeep, rfl⟩ := Fs.readToVec_pieces h
    rw [Fs.readRange_of_size_le hi hcap hsize] at hkeep
    exact hb ps s₂ hkeep

namespace Image

/-- A file of two bytes and a hole of three. -/
def holed : List (Key × Bytes) :=
  [(⟨ROOT_DIR, INODE_ITEM_KEY, 0⟩, inodeItem 0 0o40755),
    (⟨257, INODE_ITEM_KEY, 0⟩, inodeItem 5 0o100644),
    (⟨257, EXTENT_DATA_KEY, 0⟩, inlineExtent 2 0 [0x61, 0x62])]

/-- A host with one file: what is in it, and the position in it. -/
def oneFileHost : HostFs (Bytes × Nat) HostPath where
  isDir _ := pure true
  symlinkMetadata _ := throw ⟨.notFound, "not found"⟩
  createDirAll _ := pure ()
  removeFile _ := pure ()
  symlink _ _ _ := pure ()
  rename _ _ := pure ()
  setFileMtime _ _ _ := pure ()
  create path _ := .ok path ([], 0)
  writeAll _ d h := .ok () (overwrite 0 h.1 h.2 d, h.2 + d.length)
  seek _ n h := .ok () (h.1, h.2 + n)
  setLen _ n h := .ok () (resize 0 h.1 n, h.2)
  setPermissions _ _ := pure ()
  syncAll _ := pure ()
  manifestLine _ := pure ()
  manifestNewline := pure ()

theorem keepsFiles_oneFileHost : oneFileHost.KeepsFiles id (fun h _ => h.1) fun h _ => h.2 where
  create h := by
    obtain ⟨rfl, rfl⟩ := EStateM.Result.ok.inj h
    exact ⟨rfl, rfl, rfl⟩
  writeAll h := by
    obtain ⟨-, rfl⟩ := EStateM.Result.ok.inj h
    exact ⟨rfl, rfl⟩
  seek h := by
    obtain ⟨-, rfl⟩ := EStateM.Result.ok.inj h
    exact ⟨rfl, rfl⟩
  setLen h := by
    obtain ⟨-, rfl⟩ := EStateM.Result.ok.inj h
    rfl
  setPermissions h := by rw [(EStateM.Result.ok.inj h).2]
  syncAll h := by rw [(EStateM.Result.ok.inj h).2]

/-- Output that goes where it can be seen. -/
def shown : Stdout Bytes where
  writeAll d o := .ok () (o ++ d)
  flush := pure ()

theorem appends_shown : shown.Appends id where
  writeAll h := ((EStateM.Result.ok.inj h).2).symm
  flush h := ((EStateM.Result.ok.inj h).2).symm

/-- A copier of an image onto such a host. -/
def oneFileCopier : Copier Unit (Bytes × Nat) HostPath where
  fs := fs []
  host := oneFileHost
  opts := ⟨fun _ => false, false, false, false, false⟩
  platform := ⟨false⟩
  unicode := ⟨fun c => [c.toLower], Char.isAlpha, fun _ => false⟩

def holedInode : Inode :=
  { size := 5, nlink := 0, uid := 0, gid := 0, mode := 0o100644, mtimeSec := 0, mtimeNsec := 0 }

def holedState : FsState Unit := cachedLeaves (volumeLeaves holed) ()

/-- A file with a hole, as it is copied and as it is written out. -/
theorem sparse_copy_is_plain_holed : ∃ b : Bytes, b.length = 5 ∧
    (∃ s' w', oneFileCopier.writeFile ⟨FS_TREE_OBJECTID, 257⟩ holedInode [['f']]
      (holedState, Work.start ([], 0)) = .ok () (s', w') ∧ w'.host.1 = b) ∧
    ∃ s' o', oneFileCopier.fs.catRange shown ⟨FS_TREE_OBJECTID, 257⟩ 0 U64_MAX (holedState, []) =
      .ok () (s', o') ∧ o' = b := by
  have hinode : Result.passes (fun i _ => i = holedInode)
      (oneFileCopier.fs.inode ⟨FS_TREE_OBJECTID, 257⟩ holedState) = true := by decide +kernel
  have hwrite : Result.passes (fun _ _ => true) (oneFileCopier.writeFile ⟨FS_TREE_OBJECTID, 257⟩
      holedInode [['f']] (holedState, Work.start ([], 0))) = true := by decide +kernel
  have hcat : Result.passes (fun _ _ => true) (oneFileCopier.fs.catRange shown
      ⟨FS_TREE_OBJECTID, 257⟩ 0 U64_MAX (holedState, [])) = true := by decide +kernel
  obtain ⟨i, s₁, hi, hsame⟩ := Result.exists_of_passes hinode
  obtain rfl : i = holedInode := of_decide_eq_true hsame
  obtain ⟨⟨⟩, ⟨s', w'⟩, hwrite, -⟩ := Result.exists_of_passes hwrite
  obtain ⟨⟨⟩, ⟨s'', o'⟩, hcat, -⟩ := Result.exists_of_passes hcat
  obtain ⟨-, -, b, hlength, hfile, hout, -⟩ :=
    Copier.sparse_copy_is_plain (c := oneFileCopier) keepsFiles_oneFileHost appends_shown hi
  exact ⟨b, hlength, ⟨s', w', hwrite, hfile _ _ _ _ hwrite⟩, s'', o', hcat, hout _ _ _ hcat⟩

end Image

end BtrfsPeek
