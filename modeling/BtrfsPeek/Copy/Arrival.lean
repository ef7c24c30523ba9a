import BtrfsPeek.Copy.Landing
import BtrfsPeek.Copy.Filters

/-!
# What is copied arrives

What comes of what is no directory, if copying it does not fail (`Copier.Came`). On a Unix
host, whatever fails, copying it changes only what two names lead to, if nothing stands at the
temporary one; a file or a link that was copied is there (`Copier.copyLeaf_lands`).
-/

namespace BtrfsPeek

open Effect SparseFile UnixHost

variable {β : Type}

namespace Copier

section came

variable {η φ : Type} (c : Copier β η φ) (s₀ : FsState β)

/-- The warning of a link that was not made. -/
def notCreated (src target : Text) (e : Error) : String :=
  s!"{String.ofList src}: symlink to {c.fs.crates.debugStr target} not created ({e.text}); it is recorded in the manifest"

/-- What comes of what is no directory, if copying it does not fail: a link to what was read,
or a warning that there is none; a warning where it is neither link nor file; or a file.
`link` and `file` say what that is to be. -/
inductive Came (loc : Loc) (src : Text) (warnings : List String) (link : Text → Prop)
    (file : Inode → Prop) : Prop
  | linked {i : Inode} {raw : Bytes} (hi : c.fs.Sometime s₀ (c.fs.inode loc) (· = i))
      (hlink : i.isSymlink = true) (hraw : c.fs.Sometime s₀ (c.fs.readSymlinkTarget loc) (· = raw))
      (h : link (Utf8.fromUtf8Lossy raw)) : Came loc src warnings link file
  | unlinked {i : Inode} {raw : Bytes} {e : Error} (hi : c.fs.Sometime s₀ (c.fs.inode loc) (· = i))
      (hlink : i.isSymlink = true) (hraw : c.fs.Sometime s₀ (c.fs.readSymlinkTarget loc) (· = raw))
      (h : c.notCreated src (Utf8.fromUtf8Lossy raw) e ∈ warnings) : Came loc src warnings link file
  | skipped {i : Inode} (hi : c.fs.Sometime s₀ (c.fs.inode loc) (· = i)) (hlink : i.isSymlink = false)
      (hfile : i.isFile = false) (h : s!"{String.ofList src}: skipped {i.typeName}" ∈ warnings) :
      Came loc src warnings link file
  | filed {i : Inode} (hi : c.fs.Sometime s₀ (c.fs.inode loc) (· = i)) (hfile : i.isFile = true)
      (h : file i) : Came loc src warnings link file

variable {c s₀}

theorem Came.mono {loc : Loc} {src : Text} {warnings warnings' : List String} {link link' : Text → Prop}
    {file file' : Inode → Prop} (h : c.Came s₀ loc src warnings link file) (hw : warnings <+: warnings')
    (hlink : ∀ target, link target → link' target) (hfile : ∀ i, file i → file' i) :
    c.Came s₀ loc src warnings' link' file' := by
  cases h with
  | linked hi hl hraw h => exact .linked hi hl hraw (hlink _ h)
  | unlinked hi hl hraw h => exact .unlinked hi hl hraw (hw.subset h)
  | skipped hi hl hf h => exact .skipped hi hl hf (hw.subset h)
  | filed hi hf h => exact .filed hi hf (hfile _ h)

end came

variable {c : Copier β UnixHost HostPath} {s₀ : FsState β} {P Q E : UnixHost → Prop}

/-- Reading has led here, and `P` holds of the host. -/
abbrev Reading (c : Copier β UnixHost HostPath) (s₀ : FsState β) (P : UnixHost → Prop) :
    FsState β × Work UnixHost → Prop := Going c.fs s₀ fun w => P w.host

theorem hostCall_reading {α : Type} {op : HostOp UnixHost α} {Q : α → UnixHost → Prop}
    {wrap : OsError → Error} (h : Ensures P op Q fun _ => E) :
    Ensures (c.Reading s₀ P) (onSnd (hostCall wrap op)) (fun a => c.Reading s₀ (Q a))
      fun _ => c.Reading s₀ E := by
  rintro ⟨s, w⟩ ⟨hs, hw⟩
  have := h w.host hw
  unfold onSnd hostCall
  dsimp only
  cases hop : op w.host with
  | ok a h' =>
    rw [hop] at this
    exact ⟨hs, this⟩
  | error e h' =>
    rw [hop] at this
    exact ⟨hs, this⟩

/-- What is no matter of the host. -/
theorem modify_reading {g : Work UnixHost → Work UnixHost} {E : Error → FsState β × Work UnixHost → Prop}
    (h : ∀ w, (g w).host = w.host) :
    Ensures (c.Reading s₀ P) (onSnd (modify g)) (fun _ => c.Reading s₀ P) E :=
  onSnd_going fun w hw => by
    show P (g w).host
    rwa [h]

theorem report_reading (f : Report → Report) : Keeps (c.Reading s₀ P) (report f) :=
  modify_reading fun _ => rfl

theorem onFst_reading {α : Type} {x : FsM β α} (h : Keeps (c.fs.Later s₀) x) :
    Keeps (c.Reading s₀ P) (onFst x) := 
  keeps_going (onFst_reads h) (Keeps.onFst (P := fun w : Work UnixHost => P w.host) x)

section unix

variable (hc : c.host = unixHost)

include hc

theorem manifest_reading (hP : Deaf P) (loc : Loc) (src : Text) (dest : HostPath) (target : Option Text) :
    Keeps (c.Reading s₀ P) (c.manifest loc src dest target) := by
  refine .ite (fun _ => ?_) fun _ => .pure _
  refine (onFst_reading (Fs.inode_keeps loc)).bind fun i => ?_
  rw [hc]
  exact Keeps.bind (hostCall_reading (manifestLine_keeps hP _)) fun _ => hostCall_reading (idle_keeps hP)

theorem setMtime_reading (hP : Deaf P) {dest : HostPath}
    (htouch : ∀ sec nsec h h', P h → touch dest sec nsec h = .ok h' → P h') (loc : Loc) :
    Keeps (c.Reading s₀ P) (c.setMtime loc dest) := by
  refine (onFst_reading (Fs.inode_keeps loc)).attempt.bind fun r => ?_
  cases r with
  | error e => exact .pure _
  | ok i =>
    refine Keeps.bind (Keeps.attempt ?_) fun _ => .pure _
    rw [hc]
    exact hostCall_reading (whole_ensures hP (htouch _ _) fun _ h => h)

end unix

/-! ## Writing a file -/

/-- What was read of a file's pieces, cut off or filled up to the size that was read. -/
def Holds (c : Copier β UnixHost HostPath) (s₀ : FsState β) (loc : Loc) (i : Inode) (data : Bytes) : Prop :=
  ∃ t t' ps, c.fs.Later s₀ t ∧ c.fs.readRange loc 0 U64_MAX Op.keep (t, []) = .ok () (t', ps) ∧
    data = resize 0 (Piece.all ps) i.size

/-- On any host that keeps files. -/
theorem writeFile_resized {η φ : Type} {c : Copier β η φ} {name : φ → HostPath}
    {content : η → HostPath → Bytes} {pos : η → φ → Nat} (hfiles : c.host.KeepsFiles name content pos)
    {loc : Loc} {i : Inode} {tmp : HostPath} {s s' : FsState β} {w w' : Work η}
    (h : c.writeFile loc i tmp (s, w) = .ok () (s', w')) : ∃ ps s₁,
    c.fs.readRange loc 0 U64_MAX Op.keep (s, []) = .ok () (s₁, ps) ∧
    content w'.host tmp = resize 0 (Piece.all ps) i.size := by
  obtain ⟨file, ⟨s₁, w₁⟩, hcreate, hrun⟩ := bind_ok_iff.mp h
  obtain ⟨⟨⟩, ⟨s₂, w₂⟩, hread, hrest⟩ := bind_ok_iff.mp hrun
  obtain ⟨⟨⟩, ⟨s₃, w₃⟩, hlen, hend⟩ := bind_ok_iff.mp hrest
  obtain ⟨hfile, rfl⟩ := onSnd_ok hcreate
  obtain ⟨hname, hempty, hzero⟩ := hfiles.create (hostCall_ok hfile)
  obtain ⟨ps, hkeep, hpieces⟩ := c.fs.readRange_follows _ loc 0 U64_MAX s w₁ () s₂ w₂ hread
  refine ⟨ps, s₂, hkeep [], ?_⟩
  have hstart : StandsFor 0 (content w₁.host (name file)) (pos w₁.host file) [] := by
    rw [hname, hempty, hzero]
    exact standsFor_nil
  have hstands := writePieces_stands hfiles hstart hpieces
  have hset := hfiles.setLen (hostCall_ok (onSnd_ok hlen).1)
  have hsame : content w'.host (name file) = content w₃.host (name file) := by
    split_ifs at hend with hunix
    · obtain ⟨⟨⟩, ⟨s₄, w₄⟩, hmode, hsync⟩ := bind_ok_iff.mp hend
      rw [hfiles.syncAll (hostCall_ok (onSnd_ok hsync).1)]
      exact hfiles.setPermissions (hostCall_ok (onSnd_ok hmode).1)
    · exact hfiles.syncAll (hostCall_ok (onSnd_ok hend).1)
  rw [← hname, hsame, hset]
  exact hstands.resize i.size

section leaf

variable (hc : c.host = unixHost) {S : Nat → Prop} {base : HostPath} {x y : Text} {b : UnixHost}
  (hsite : Site S base x y b)

/-- What was read is in the file that is open. -/
def Wrote (c : Copier β UnixHost HostPath) (s₀ : FsState β) (S : Nat → Prop) (base : HostPath) (y : Text)
    (b : UnixHost) (loc : Loc) (i : Inode) (h : UnixHost) : Prop :=
  ∃ n data, Writing S base y b n h ∧ h.files.body n = some (.file data) ∧ c.Holds s₀ loc i data

/-- What was read is in the file of that name. -/
def Arrived (c : Copier β UnixHost HostPath) (s₀ : FsState β) (S : Nat → Prop) (base : HostPath)
    (x y : Text) (b : UnixHost) (loc : Loc) (i : Inode) (h : UnixHost) : Prop :=
  ∃ data, Landed S base x y b data h ∧ c.Holds s₀ loc i data

theorem Wrote.deaf {loc : Loc} {i : Inode} : Deaf (c.Wrote s₀ S base y b loc i) :=
  fun h k lines ⟨n, data, hw, hd⟩ => ⟨n, data, Writing.deaf h k lines hw, hd⟩

theorem Arrived.deaf {loc : Loc} {i : Inode} : Deaf (c.Arrived s₀ S base x y b loc i) :=
  fun h k lines ⟨data, hl, hd⟩ => ⟨data, Landed.deaf h k lines hl, hd⟩

theorem Arrived.lands {loc : Loc} {i : Inode} {h : UnixHost} (ha : c.Arrived s₀ S base x y b loc i h) :
    Lands S base x y b h := by
  obtain ⟨data, hl, -⟩ := ha
  exact hl.lands

include hc

/-- The calls with the open file leave it open. -/
theorem respects_writing (hnew : ∀ n, b.files.size ≤ n → S n) (n : Nat) :
    c.Respects (fun _ => False) fun w => Writing S base y b n w.host where
  report _ _ _ h := h
  call {α op} wrap hcall := by
    have hkeeps : Keeps (Writing S base y b n) op := by
      rw [hc] at hcall
      cases hcall with
      | symlinkMetadata h => exact h.elim
      | createDirAll h => exact h.elim
      | removeFile h => exact h.elim
      | symlink h => exact h.elim
      | rename h => exact h.elim
      | setFileMtime h => exact h.elim
      | create h => exact h.elim
      | writeAll =>
        exact call_ensures Writing.deaf (fun _ _ hw hrun => hw.withOpen hnew hrun) (fun _ h => h)
          fun k _ hw => hw.writePartly hnew _ k
      | seek => exact whole_ensures Writing.deaf (fun _ _ hw hrun => hw.withOpen hnew hrun) fun _ h => h
      | setLen => exact whole_ensures Writing.deaf (fun _ _ hw hrun => hw.withOpen hnew hrun) fun _ h => h
      | setPermissions =>
        exact whole_ensures Writing.deaf (fun _ _ hw hrun => hw.chmodOpen hnew hrun) fun _ h => h
      | syncAll => exact idle_keeps Writing.deaf
      | manifestLine => exact manifestLine_keeps Writing.deaf _
      | manifestNewline => exact idle_keeps Writing.deaf
    intro w hw
    have := hkeeps w.host hw
    unfold hostCall
    cases hop : op w.host <;> rw [hop] at this <;> exact this

include hsite

theorem writeFile_writes (loc : Loc) (i : Inode) :
    Ensures (fun t => Untouched b t.2.host) (c.writeFile loc i (base ++ [y]))
      (fun _ t => ∃ n, Writing S base y b n t.2.host)
      fun _ t => Untouched b t.2.host ∨ ∃ n, Writing S base y b n t.2.host := by
  have hcreate : Ensures (Untouched b) (unixHost.create (base ++ [y]))
      (fun _ h => ∃ n, Writing S base y b n h) fun _ => Untouched b := by
    refine Ensures.bind (whole_ensures Untouched.deaf (fun h h' hu hrun => hu.openNew hsite hrun)
      fun _ h => h) fun _ => Ensures.pure fun _ h => h
  refine Ensures.bind (Q := fun _ t => ∃ n, Writing S base y b n t.2.host) ?_ fun file => ?_
  · rintro ⟨s, w⟩ hu
    have := hcreate w.host hu
    rw [hc]
    unfold onSnd hostCall
    dsimp only
    cases hop : unixHost.create (base ++ [y]) w.host with
    | ok f h' =>
      rw [hop] at this
      exact this
    | error e h' =>
      rw [hop] at this
      exact .inl this
  · rintro t ⟨n, hw⟩
    have := fillFile_keeps (respects_writing hc (y := y) hsite.new n) loc i
      (base ++ [y]) file t hw
    split at this
    · exact ⟨n, this⟩
    · exact .inr ⟨n, this⟩

theorem writeFile_arrives (loc : Loc) (i : Inode) :
    Ensures (c.Reading s₀ (Untouched b)) (c.writeFile loc i (base ++ [y]))
      (fun _ => c.Reading s₀ (c.Wrote s₀ S base y b loc i))
      fun _ => c.Reading s₀ fun h => Untouched b h ∨ ∃ n, Writing S base y b n h := by
  have hreads : Keeps (OfFs (c.fs.Later s₀)) (c.writeFile loc i (base ++ [y])) := writeFile_reads loc i _
  have hwrites := writeFile_writes hc hsite loc i
  refine Ensures.of_outcomes ?_ ?_
  · rintro t ⟨⟩ t' ⟨hs, hu⟩ hrun
    obtain ⟨n, hw⟩ := hwrites.ok hu hrun
    have hfiles : c.host.KeepsFiles id openData openPos := hc ▸ keepsFiles_unixHost
    obtain ⟨ps, s₁, hread, hdata⟩ := writeFile_resized hfiles (s := t.1) (w := t.2) hrun
    exact ⟨hreads.ok hs hrun, n, _, hw, hw.openData, t.1, s₁, ps, hs, hread, hdata⟩
  · intro t e t' ⟨hs, hu⟩ hrun
    exact ⟨hreads.error hs hrun, hwrites.error hu hrun⟩

omit hc in
/-- What is left of a file that could not be written. -/
theorem removeFile_lands : Ensures (fun h => Untouched b h ∨ ∃ n, Writing S base y b n h)
    (unixHost.removeFile (base ++ [y])) (fun _ => Lands S base x y b) fun _ => Lands S base x y b := by
  have hdeaf : Deaf fun h => Untouched b h ∨ ∃ n, Writing S base y b n h := by
    rintro h k lines (hu | ⟨n, hw⟩)
    · exact .inl (Untouched.deaf h k lines hu)
    · exact .inr ⟨n, Writing.deaf h k lines hw⟩
  refine whole_ensures hdeaf (fun h h' hh hrun => ?_) fun h hh => ?_
  · rcases hh with hu | ⟨n, hw⟩
    · -- There is nothing to remove.
      obtain ⟨d, z, n, hs, hl, -⟩ := unlink_ok hrun
      obtain ⟨hd, -, hz⟩ := (spot_concat hsite.plain.2).mp hs
      have hnone := (find_concat_none hsite.plain.2).mp hsite.free d (by rw [← hu.walk]; exact hd)
      rw [hu.files, show z = y from hz, hnone] at hl
      cases hl
    · obtain ⟨d, hd, -⟩ := hw.dir
      exact hw.lands.unlink hsite hrun ⟨d, hd⟩
  · rcases hh with hu | ⟨n, hw⟩
    · exact hu.lands
    · exact hw.lands

omit hc in
theorem rename_arrives (hfree : b.find (base ++ [x]) = none) (loc : Loc) (i : Inode) :
    Ensures (c.Wrote s₀ S base y b loc i) (unixHost.rename (base ++ [y]) (base ++ [x]))
      (fun _ => c.Arrived s₀ S base x y b loc i) fun _ => Lands S base x y b := by
  refine whole_ensures Wrote.deaf (fun h h' hw hrun => ?_) fun h hw => ?_
  · obtain ⟨n, data, hw, hbody, hholds⟩ := hw
    exact ⟨data, hw.move hsite hbody hfree hrun, hholds⟩
  · obtain ⟨n, data, hw, -⟩ := hw
    exact hw.lands

theorem copyFile_lands (hfree : b.find (base ++ [x]) = none)
    (hname : (base ++ [x]).withFileName c.platform (partialName (base ++ [x])) = base ++ [y])
    (loc : Loc) (i : Inode) (src : Text) :
    Ensures (c.Reading s₀ (Untouched b)) (c.copyFile loc i src (base ++ [x]))
      (fun _ => c.Reading s₀ (c.Arrived s₀ S base x y b loc i))
      fun _ => c.Reading s₀ (Lands S base x y b) := by
  have hlands (t : FsState β × Work UnixHost) (ht : c.Reading s₀ (c.Arrived s₀ S base x y b loc i) t) :
      c.Reading s₀ (Lands S base x y b) t := ⟨ht.1, Arrived.lands ht.2⟩
  unfold copyFile
  rw [hname]
  refine (writeFile_arrives hc hsite loc i).attempt.bind fun r => ?_
  cases r with
  | error e =>
    have hremove : Ensures (c.Reading s₀ fun h => Untouched b h ∨ ∃ n, Writing S base y b n h)
        (onSnd (hostCall hostError (c.host.removeFile (base ++ [y]))))
        (fun _ => c.Reading s₀ (Lands S base x y b)) fun _ => c.Reading s₀ (Lands S base x y b) := by
      rw [hc]
      exact hostCall_reading (removeFile_lands hsite)
    refine hremove.attempt.bind fun r => ?_
    cases r with
    | error e' => exact Ensures.throw fun _ h => h
    | ok u => exact Ensures.throw fun _ h => h
  | ok u =>
    dsimp only
    rw [hc]
    refine (hostCall_reading (rename_arrives hsite hfree loc i)).bind fun _ => ?_
    have htouch : ∀ sec nsec h h', c.Arrived s₀ S base x y b loc i h →
        touch (base ++ [x]) sec nsec h = .ok h' → c.Arrived s₀ S base x y b loc i h' := by
      rintro sec nsec h h' ⟨data, hl, hd⟩ hrun
      exact ⟨data, hl.touch hsite hrun, hd⟩
    have hset : Keeps (c.Reading s₀ (c.Arrived s₀ S base x y b loc i)) (c.setMtime loc (base ++ [x])) :=
      setMtime_reading hc Arrived.deaf htouch loc
    have hrest := hset.bind fun _ =>
      (report_reading fun r => { r with files := r.files + 1, bytes := wadd r.bytes i.size }).bind fun _ =>
        manifest_reading hc Arrived.deaf loc src (base ++ [x]) none
    exact hrest.mono (fun _ h => h) (fun _ _ h => h) fun _ t h => hlands t h

/-! ## Links, and what is neither -/

omit hc in
theorem makeLink_lands (hfree : b.find (base ++ [x]) = none) (target : Text) :
    Ensures (Untouched b) (whole (make (base ++ [x]) fun _ => newLink target))
      (fun _ h => Lands S base x y b h ∧ h.Linked (base ++ [x]) target) fun _ => Lands S base x y b := by
  refine whole_ensures Untouched.deaf (fun h h' hu hrun => ?_) fun h hu => hu.lands
  obtain ⟨d, z, hs, hl, rfl⟩ := make_ok hrun
  obtain ⟨hd, hdir, hz⟩ := (spot_concat hsite.plain.1).mp hs
  obtain rfl : z = x := hz
  have hlands := hu.putNode hsite (v := newLink target) hd hdir hl fun _ _ he => by cases he
  exact ⟨hlands, linked_putNode hsite.plain.1 hs hl⟩

theorem copySymlink_lands (hp : c.platform.windows = false) (hfree : b.find (base ++ [x]) = none)
    (loc : Loc) (src : Text) :
    Ensures (c.Reading s₀ (Untouched b)) (c.copySymlink loc src (base ++ [x]))
      (fun _ t => c.Reading s₀ (Lands S base x y b) t ∧
        ∃ raw, c.fs.Sometime s₀ (c.fs.readSymlinkTarget loc) (· = raw) ∧
          (t.2.host.Linked (base ++ [x]) (Utf8.fromUtf8Lossy raw) ∨
            ∃ e, c.notCreated src (Utf8.fromUtf8Lossy raw) e ∈ t.2.report.warnings))
      fun _ => c.Reading s₀ (Lands S base x y b) := by
  have hu {t : FsState β × Work UnixHost} (ht : c.Reading s₀ (Untouched b) t) :
      c.Reading s₀ (Lands S base x y b) t := ⟨ht.1, Untouched.lands ht.2⟩
  have hlink (target : Text) : Ensures (c.Reading s₀ (Untouched b)) (c.symlink target (base ++ [x]) src)
      (fun _ => c.Reading s₀ fun h => Lands S base x y b h ∧ h.Linked (base ++ [x]) target)
      fun _ => c.Reading s₀ (Lands S base x y b) := by
    unfold symlink
    rw [hp, hc]
    exact hostCall_reading (makeLink_lands hsite hfree target)
  refine Ensures.bind ((onFst_going (Fs.sometime_of_keeps (Fs.readSymlinkTarget_keeps loc))).mono
    (fun _ h => h) (fun _ _ h => h) fun _ _ h => hu h) fun raw => Ensures.fact fun hraw => ?_
  refine Ensures.bind ((manifest_reading hc Untouched.deaf loc src _ _).mono (fun _ h => h)
    (fun _ _ h => h) fun _ _ h => hu h) fun _ => ?_
  refine (hlink _).attempt.bind fun r => ?_
  cases r with
  | error e =>
    exact fun t ht => ⟨ht, raw, hraw, .inr ⟨e, List.mem_append_right _ List.mem_cons_self⟩⟩
  | ok u => exact fun t ht => ⟨⟨ht.1, ht.2.1⟩, raw, hraw, .inl ht.2.2⟩

omit hsite in
/-- Where nothing is overwritten, nothing has to make way. -/
theorem makeWay_untouched {dest : HostPath} (hforce : c.opts.force = false ∨ b.find dest = none) :
    Ensures (c.Reading s₀ (Untouched b)) (c.makeWay dest)
      (fun _ t => c.Reading s₀ (Untouched b) t ∧ b.find dest = none) fun _ => c.Reading s₀ (Untouched b) := by
  have hlook : Ensures (Untouched b) (unixHost.symlinkMetadata dest)
      (fun _ h => Untouched b h ∧ b.find dest ≠ none) fun _ h => Untouched b h ∧ b.find dest = none := by
    intro h hu
    have hfind := hu.find dest
    cases hn : h.find dest with
    | none =>
      rw [symlinkMetadata_none hn]
      exact ⟨hu, by rw [← hfind, hn]⟩
    | some n =>
      rw [symlinkMetadata_some hn]
      exact ⟨hu, by simp [← hfind, hn]⟩
  unfold makeWay
  rw [hc]
  have hcall : Ensures (c.Reading s₀ (Untouched b))
      (onSnd (hostCall hostError (unixHost.symlinkMetadata dest)))
      (fun _ => c.Reading s₀ fun h => Untouched b h ∧ b.find dest ≠ none)
      fun _ => c.Reading s₀ fun h => Untouched b h ∧ b.find dest = none := by
    rintro ⟨s, w⟩ ⟨hs, hw⟩
    have := hlook w.host hw
    unfold onSnd hostCall
    dsimp only
    cases hop : unixHost.symlinkMetadata dest w.host with
    | ok a h' =>
      rw [hop] at this
      exact ⟨hs, this⟩
    | error e h' =>
      rw [hop] at this
      exact ⟨hs, this⟩
  refine hcall.attempt.bind fun r => ?_
  cases r with
  | error e => exact Ensures.pure fun t ht => ⟨⟨ht.1, ht.2.1⟩, ht.2.2⟩
  | ok v =>
    dsimp only
    refine Ensures.bind (Q := fun _ _ => False) (Ensures.lift (fun u hok t ht => ?_) fun e _ t ht => ?_)
      fun u t ht => ht.elim
    · have hno : c.opts.force = false := hforce.resolve_right ht.2.2
      simp [bailIf, hno] at hok
    · exact ⟨ht.1, ht.2.1⟩

/-- A file or a link that was copied is there. -/
def Brought (c : Copier β UnixHost HostPath) (s₀ : FsState β) (S : Nat → Prop) (base : HostPath)
    (x y : Text) (b : UnixHost) (loc : Loc) (src : Text) (w : Work UnixHost) : Prop :=
  Lands S base x y b w.host ∧ c.Came s₀ loc src w.report.warnings (w.host.Linked (base ++ [x]))
    fun i => c.Arrived s₀ S base x y b loc i w.host

/-- Copying what is no directory, where nothing is at the temporary name and nothing is to be
overwritten. -/
theorem copyLeaf_lands (hp : c.platform.windows = false)
    (hforce : c.opts.force = false ∨ b.find (base ++ [x]) = none)
    (hname : (base ++ [x]).withFileName c.platform (partialName (base ++ [x])) = base ++ [y])
    (loc : Loc) (src : Text) :
    Ensures (c.Reading s₀ (Untouched b)) (c.copyLeaf loc src (base ++ [x]))
      (fun _ => Going c.fs s₀ (c.Brought s₀ S base x y b loc src))
      fun _ => c.Reading s₀ (Lands S base x y b) := by
  have hu {t : FsState β × Work UnixHost} (ht : c.Reading s₀ (Untouched b) t) :
      c.Reading s₀ (Lands S base x y b) t := ⟨ht.1, Untouched.lands ht.2⟩
  refine Ensures.bind (Ensures.get fun _ h => h) fun w => ?_
  refine Ensures.bind (modify_reading fun _ => rfl) fun _ => ?_
  refine Ensures.bind ((onFst_outcome (Fs.inode_keeps loc)).mono (fun _ h => h) (fun _ _ h => h)
    fun _ _ h => hu h.1) fun i => Ensures.fact fun hi => ?_
  refine Ensures.bind ((makeWay_untouched hc hforce).mono (fun _ h => h) (fun _ _ h => h)
    fun _ _ h => hu h) fun _ => Ensures.fact fun hfree => ?_
  have hread : c.fs.Sometime s₀ (c.fs.inode loc) (· = i) := by
    obtain ⟨u, hu, hi⟩ := hi
    exact ⟨u, i, hu, hi, rfl⟩
  split_ifs with hlink hfile
  · refine (copySymlink_lands hc hsite hp hfree loc src).mono (fun _ h => h) (fun _ t h => ?_)
      fun _ _ h => h
    obtain ⟨⟨hs, hlands⟩, raw, hraw, hmade | ⟨e, hwarned⟩⟩ := h
    · exact ⟨hs, hlands, .linked hread hlink hraw hmade⟩
    · exact ⟨hs, hlands, .unlinked hread hlink hraw hwarned⟩
  · refine fun t ht => ⟨ht.1, Untouched.lands ht.2, .skipped hread (Bool.eq_false_iff.mpr hlink) hfile ?_⟩
    exact List.mem_append_right _ List.mem_cons_self
  · refine (copyFile_lands hc hsite hfree hname loc i src).mono (fun _ h => h) (fun _ t h => ?_)
      fun _ _ h => h
    exact ⟨h.1, Arrived.lands h.2, .filed hread (by simpa using hfile) h.2⟩

end leaf

end Copier

end BtrfsPeek
