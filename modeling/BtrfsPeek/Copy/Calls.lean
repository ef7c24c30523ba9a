import BtrfsPeek.Copy.Names

/-!
# What the copier asks of the host

The calls that take a path of the host are made with the path an entry is copied to,
and with that of the temporary file beside it. What every call keeps with those paths
(`Copier.Respects`), copying an entry keeps (`Copier.copyLeaf_keeps`).
-/

namespace BtrfsPeek

open Effect

variable {β η φ : Type}

/-- The calls of a host, where the paths are as is allowed. -/
inductive HostFs.Call (H : HostFs η φ) (allowed : HostPath → Prop) : {α : Type} → HostOp η α → Prop
  | symlinkMetadata {path : HostPath} (h : allowed path) : Call H allowed (H.symlinkMetadata path)
  | createDirAll {path : HostPath} (h : allowed path) : Call H allowed (H.createDirAll path)
  | removeFile {path : HostPath} (h : allowed path) : Call H allowed (H.removeFile path)
  | symlink {kind : LinkKind} {target : Text} {path : HostPath} (h : allowed path) :
    Call H allowed (H.symlink kind target path)
  | rename {source dest : HostPath} (h : allowed source) (h' : allowed dest) :
    Call H allowed (H.rename source dest)
  | setFileMtime {path : HostPath} {sec : Int} {nsec : Nat} (h : allowed path) :
    Call H allowed (H.setFileMtime path sec nsec)
  | create {path : HostPath} (h : allowed path) : Call H allowed (H.create path)
  | writeAll {f : φ} {d : Bytes} : Call H allowed (H.writeAll f d)
  | seek {f : φ} {n : Nat} : Call H allowed (H.seek f n)
  | setLen {f : φ} {n : Nat} : Call H allowed (H.setLen f n)
  | setPermissions {f : φ} {mode : Nat} : Call H allowed (H.setPermissions f mode)
  | syncAll {f : φ} : Call H allowed (H.syncAll f)
  | manifestLine {line : ManifestLine} : Call H allowed (H.manifestLine line)
  | manifestNewline : Call H allowed H.manifestNewline

/-- A report goes on that counts no failure, and takes no warning back. -/
structure Report.Onward (r r' : Report) : Prop where
  failures : r'.failures = r.failures
  warnings : r.warnings <+: r'.warnings

theorem Report.Onward.counts {r r' : Report} (hf : r'.failures = r.failures)
    (hw : r'.warnings = r.warnings) : r.Onward r' := ⟨hf, hw ▸ List.prefix_refl _⟩

namespace Copier

variable {c : Copier β η φ}

/-- What holds of the copier's own state whatever it reports but failures, and whatever it asks
of the host with the paths that are allowed. -/
structure Respects (c : Copier β η φ) (allowed : HostPath → Prop) (Q : Work η → Prop) : Prop where
  report (w : Work η) (r : Report) : w.report.Onward r → Q w → Q { w with report := r }
  call {α : Type} {op : HostOp η α} (wrap : OsError → Error) :
    c.host.Call allowed op → Keeps Q (hostCall wrap op)

/-- What does not look at the host. -/
theorem hostCall_frame {Q : Work η → Prop} (h : ∀ w host, Q w → Q { w with host := host }) {α : Type}
    (wrap : OsError → Error) (op : HostOp η α) : Keeps Q (hostCall wrap op) := by
  intro w hw
  unfold hostCall
  split <;> rename_i heq <;> split at heq <;> cases heq <;> exact h w _ hw

/-- What does not look at the host or the report. -/
theorem respects_of_frame (c : Copier β η φ) {allowed : HostPath → Prop} {Q : Work η → Prop}
    (h : ∀ w host r, Q w → Q { w with host := host, report := r }) : c.Respects allowed Q where
  report w r _ := h w w.host r
  call wrap _ := hostCall_frame (fun w host => h w host w.report) wrap _

/-- `Q` of the copier's own state. -/
abbrev OfWork (Q : Work η → Prop) (s : FsState β × Work η) : Prop := Q s.2

/-- The filesystem is no part of it. -/
theorem onFst_keeps {α : Type} (Q : Work η → Prop) (x : FsM β α) : Keeps (OfWork Q) (onFst x) :=
  Keeps.onFst x

section respects

variable {allowed : HostPath → Prop} {Q : Work η → Prop} (hQ : c.Respects allowed Q)

include hQ

theorem report_keeps {f : Report → Report} (hf : ∀ r : Report, r.Onward (f r)) :
    Keeps (OfWork (β := β) Q) (report f) :=
  Keeps.onSnd (Keeps.modify fun w hw => hQ.report w (f w.report) (hf w.report) hw)

theorem warn_keeps (text : String) : Keeps (OfWork (β := β) Q) (warn text) :=
  report_keeps hQ fun r => ⟨rfl, List.prefix_append r.warnings [text]⟩

theorem call_keeps {α : Type} {op : HostOp η α} {wrap : OsError → Error} (h : c.host.Call allowed op) :
    Keeps (OfWork (β := β) Q) (onSnd (hostCall wrap op)) := Keeps.onSnd (hQ.call wrap h)

theorem manifest_keeps (loc : Loc) (src : Text) (dest : HostPath) (target : Option Text) :
    Keeps (OfWork Q) (c.manifest loc src dest target) := by
  refine .ite (fun _ => ?_) fun _ => .pure _
  exact (onFst_keeps _ _).bind fun _ => (call_keeps hQ .manifestLine).bind fun _ =>
    call_keeps hQ .manifestNewline

theorem setMtime_keeps (loc : Loc) {dest : HostPath} (hdest : allowed dest) :
    Keeps (OfWork Q) (c.setMtime loc dest) := by
  refine (onFst_keeps _ _).attempt.bind fun r => ?_
  cases r with
  | error e => exact .pure _
  | ok i => exact (call_keeps hQ (.setFileMtime hdest)).attempt.bind fun _ => .pure _

theorem seekPast_keeps (file : φ) : ∀ steps left, Keeps Q (c.seekPast file steps left)
  | 0, _ => .pure _
  | steps + 1, left => by
    refine .ite (fun _ => ?_) fun _ => .pure _
    exact (hQ.call _ .seek).bind fun _ => seekPast_keeps file steps _

theorem writePiece_keeps (file : φ) : ∀ p : Piece, Keeps Q (c.writePiece file p)
  | .data _ => hQ.call _ .writeAll
  | .zeros _ => seekPast_keeps hQ file _ _

/-- What comes after the file is created. -/
theorem fillFile_keeps (loc : Loc) (i : Inode) (tmp : HostPath) (file : φ) :
    Keeps (OfWork Q) (do
      c.fs.readRange loc 0 U64_MAX (c.writePiece file)
      onSnd (hostCall hostError (c.host.setLen file i.size))
      if c.platform.windows = false then
        onSnd (hostCall hostError (c.host.setPermissions file (i.mode &&& 0o7777)))
      onSnd (hostCall (fun e => .context s!"flushing {tmp.display}" (hostError e))
        (c.host.syncAll file)) : CopyM β η Unit) := by
  refine (c.fs.readRange_keeps (writePiece_keeps hQ file) loc 0 U64_MAX).bind fun _ => ?_
  refine (call_keeps hQ .setLen).bind fun _ => ?_
  refine .ite (fun _ => ?_) fun _ => call_keeps hQ .syncAll
  exact (call_keeps hQ .setPermissions).bind fun _ => call_keeps hQ .syncAll

theorem writeFile_keeps (loc : Loc) (i : Inode) {tmp : HostPath} (htmp : allowed tmp) :
    Keeps (OfWork Q) (c.writeFile loc i tmp) :=
  (call_keeps hQ (.create htmp)).bind fun file => fillFile_keeps hQ loc i tmp file

omit hQ in
theorem targetIsDir_keeps (target src : Text) : Keeps (OfWork Q) (c.targetIsDir target src) := by
  refine (onFst_keeps _ _).attempt.bind fun r => ?_
  cases r with
  | error e => exact .pure _
  | ok loc =>
    refine (onFst_keeps _ _).attempt.bind fun r => ?_
    cases r with
    | error e => exact .pure _
    | ok i => exact .pure _

theorem symlink_keeps (target : Text) {dest : HostPath} (src : Text) (hdest : allowed dest) :
    Keeps (OfWork Q) (c.symlink target dest src) := by
  refine .ite (fun _ => ?_) fun _ => call_keeps hQ (.symlink hdest)
  exact (targetIsDir_keeps target src).bind fun _ => call_keeps hQ (.symlink hdest)

theorem copySymlink_keeps (loc : Loc) (src : Text) {dest : HostPath} (hdest : allowed dest) :
    Keeps (OfWork Q) (c.copySymlink loc src dest) := by
  refine (onFst_keeps _ _).bind fun _ => ?_
  refine (manifest_keeps hQ _ _ _ _).bind fun _ => ?_
  refine (symlink_keeps hQ _ src hdest).attempt.bind fun r => ?_
  cases r with
  | error e => exact warn_keeps hQ _
  | ok u => exact report_keeps hQ fun r => .counts rfl rfl

/-- What comes after the temporary file is written, or is not. -/
theorem settleFile_keeps (loc : Loc) (i : Inode) (src : Text) {dest tmp : HostPath}
    (hdest : allowed dest) (htmp : allowed tmp) (r : Except Error Unit) :
    Keeps (OfWork Q) (match r with
      | .error e => do
        let _ ← attempt (onSnd (hostCall hostError (c.host.removeFile tmp)))
        throw e
      | .ok () => do
        onSnd (hostCall
          (fun e => .context s!"moving the finished file into {dest.display}" (hostError e))
          (c.host.rename tmp dest))
        c.setMtime loc dest
        report fun r => { r with files := r.files + 1, bytes := wadd r.bytes i.size }
        c.manifest loc src dest none : CopyM β η Unit) := by
  cases r with
  | error e => exact (call_keeps hQ (.removeFile htmp)).attempt.bind fun _ => .throw _
  | ok u =>
    refine (call_keeps hQ (.rename htmp hdest)).bind fun _ => ?_
    refine (setMtime_keeps hQ loc hdest).bind fun _ => ?_
    exact Keeps.bind (report_keeps hQ fun r => .counts rfl rfl) fun _ => manifest_keeps hQ _ _ _ _

theorem copyFile_keeps (loc : Loc) (i : Inode) (src : Text) {dest : HostPath} (hdest : allowed dest)
    (htmp : allowed (dest.withFileName c.platform (partialName dest))) :
    Keeps (OfWork Q) (c.copyFile loc i src dest) :=
  (writeFile_keeps hQ loc i htmp).attempt.bind fun r => settleFile_keeps hQ loc i src hdest htmp r

theorem makeWay_keeps {dest : HostPath} (hdest : allowed dest) : Keeps (OfWork Q) (c.makeWay dest) := by
  refine (call_keeps hQ (.symlinkMetadata hdest)).attempt.bind fun r => ?_
  cases r with
  | error e => exact .pure _
  | ok b => exact (Keeps.lift _).bind fun _ => call_keeps hQ (.removeFile hdest)

theorem enter_keeps (dir : Loc) (src : Text) {dest : HostPath} (hdest : allowed dest) :
    Keeps (OfWork Q) (c.enter dir src dest) := by
  refine (call_keeps hQ (.symlinkMetadata hdest)).attempt.bind fun r => ?_
  have hrest : Keeps (OfWork Q) (do
      onSnd (hostCall (fun e => .context s!"creating {dest.display}" (hostError e))
        (c.host.createDirAll dest))
      report fun r => { r with dirs := r.dirs + 1 }
      c.manifest dir src dest none : CopyM β η Unit) :=
    (call_keeps hQ (.createDirAll hdest)).bind fun _ =>
      Keeps.bind (report_keeps hQ fun r => .counts rfl rfl) fun _ => manifest_keeps hQ _ _ _ _
  cases r with
  | error e => exact hrest
  | ok b => exact (Keeps.lift _).bind fun _ => hrest

/-- What comes after it is recorded that something is copied. -/
theorem leafRest_keeps (loc : Loc) (src : Text) {dest : HostPath} (hdest : allowed dest)
    (htmp : allowed (dest.withFileName c.platform (partialName dest))) :
    Keeps (OfWork Q) (do
      let i ← onFst (c.fs.inode loc)
      c.makeWay dest
      if i.isSymlink then c.copySymlink loc src dest
      else if i.isFile = false then warn s!"{String.ofList src}: skipped {i.typeName}"
      else c.copyFile loc i src dest : CopyM β η Unit) := by
  refine (onFst_keeps _ _).bind fun i => (makeWay_keeps hQ hdest).bind fun _ => ?_
  refine .ite (fun _ => copySymlink_keeps hQ loc src hdest) fun _ => ?_
  exact .ite (fun _ => warn_keeps hQ _) fun _ => copyFile_keeps hQ loc i src hdest htmp

/-- What every call keeps that may be made for `dest`, copying what is no directory to it
keeps. -/
theorem copyLeaf_keeps (loc : Loc) (src : Text) {dest : HostPath}
    (hrecord : ∀ w, Q w → Q { w with log := w.log ++ [.leaf loc dest w.host] }) (hdest : allowed dest)
    (htmp : allowed (dest.withFileName c.platform (partialName dest))) :
    Keeps (OfWork Q) (c.copyLeaf loc src dest) := by
  intro s hs
  exact leafRest_keeps hQ loc src hdest htmp _ (hrecord s.2 hs)

end respects

end Copier

end BtrfsPeek
