import BtrfsPeek.Copy.Calls
import BtrfsPeek.Copy.Cat
import BtrfsPeek.Copy.Find
import BtrfsPeek.Fs.Failures

/-!
# What the commands fail with

As for the operations on the filesystem: what `cat`, `find` and a copy fail with is in a
set that has what the program makes itself and what the devices and the host answer.
-/

namespace BtrfsPeek

open Effect

variable {β η φ ω : Type} [Noting β] [Noting η] {E : Error → Prop}

/-- A note of the host's. -/
instance : Noting (Work η) := ⟨fun w => hasNote w.host⟩

instance : Noting FindWork := .never

/-- What the host answers to the calls of a copy is in `E`, or it is noted. -/
structure HostFs.Answers (E : Error → Prop) (H : HostFs η φ) : Prop where
  call {α : Type} {op : HostOp η α} : H.Call (fun _ => True) op →
    FailsWith (fun e => E (.io (e.at .host))) op
  isDir (path : HostPath) : FailsWith (fun _ => True) (H.isDir path)

/-- What standard output answers is in `E`. -/
def OfStdout (E : Error → Prop) : Prop := ∀ e : OsError, E (.io (e.at .stdout))

/-! ## `cat` and `find` -/

namespace Fs

variable {fs : Fs β} (hE : Error.Closed E) (hfs : fs.Answers E)

/-! Of standard output there is no note. -/

omit [Noting β] [Noting η] in
theorem stdoutCall_fails (hout : OfStdout E) (x : HostOp ω Unit) :
    letI : Noting ω := .never
    FailsWith E (stdoutCall x) := by
  let : Noting ω := .never
  refine ⟨.of_false, fun s e s' h => .inl ?_⟩
  unfold stdoutCall at h
  cases hx : x s with
  | ok a t => rw [hx] at h; cases h
  | error e' t =>
    rw [hx] at h
    rw [← (EStateM.Result.error.inj h).1]
    exact hout e'

omit [Noting β] [Noting η] in
theorem writeZeros_fails (hout : OfStdout E) (out : Stdout ω) :
    letI : Noting ω := .never
    ∀ blocks left, FailsWith E (writeZeros out blocks left)
  | 0, _ => by
    let : Noting ω := .never
    exact .pure _
  | blocks + 1, left => by
    let : Noting ω := .never
    refine .ite (fun _ => ?_) fun _ => .pure _
    exact (stdoutCall_fails hout _).bind fun _ => writeZeros_fails hout out blocks _

omit [Noting β] [Noting η] in
theorem catPiece_fails (hout : OfStdout E) (out : Stdout ω) :
    letI : Noting ω := .never
    ∀ p, FailsWith E (catPiece out p)
  | .data _ => stdoutCall_fails hout _
  | .zeros _ => writeZeros_fails hout out _ _

include hE hfs

theorem cat_fails (hout : OfStdout E) (out : Stdout ω) (path : Text) (offset : Nat) (length : Option Nat) :
    letI : Noting ω := .never
    FailsWith E (fs.cat out path offset length) := by
  let : Noting ω := .never
  refine (FailsWith.onFst (resolve_fails hE hfs path)).bind fun loc => ?_
  refine (FailsWith.onFst (inode_fails hE hfs loc)).bind fun i => ?_
  refine (FailsWith.lift (bailIf_errs hE _ _)).bind fun _ => ?_
  refine (readRange_fails hE hfs (catPiece_fails hout out) loc _ _).bind fun _ => ?_
  exact .onSnd (stdoutCall_fails hout _)

omit hE hfs in
theorem onFind_fails (f : FindWork → FindWork) : FailsWith E (onFind f : FindM β Unit) :=
  .onSnd (.modify fun _ h => h)

omit hE hfs in
theorem findRecord_fails (e : FindEvent) : FailsWith E (findRecord e : FindM β Unit) :=
  .onSnd (.modify fun _ h => h)

theorem findEntries_fails (q : FindQuery) {search : Search β}
    (hsearch : ∀ dir path, FailsWith E (search dir path)) (dir : Loc) (path : Text) :
    ∀ es, FailsWith E (fs.findEntries q search dir path es)
  | [] => .pure _
  | e :: es => by
    have next : FailsWith E (fs.findEntries q search dir path es) :=
      findEntries_fails q hsearch dir path es
    have hskips : FailsWith E (fs.findSkips q e) := by
      refine .ite (fun _ => .pure _) fun _ => .ite (fun _ => .pure _) fun _ => ?_
      exact .ite (fun _ => .onFst (isSnapshot_fails hE hfs _)) fun _ => .pure _
    refine (findRecord_fails _).bind fun _ => .ite (fun _ => .ite (fun _ => ?_) fun _ => ?_) fun _ => ?_
    -- what matches is noted first, and printed if lines are
    on_goal 1 => refine (onFind_fails _).bind fun _ => (onFind_fails _).bind fun _ => ?_
    on_goal 2 => refine (onFind_fails _).bind fun _ => ?_
    all_goals
      refine hskips.bind fun skip => .ite (fun _ => ?_) fun _ => next
      refine FailsWith.attempt_any (hsearch _ _).keeps fun r => ?_
      cases r with
      | ok u => exact next
      | error err => exact (findRecord_fails _).bind fun _ => (onFind_fails _).bind fun _ => next

theorem find_fails (q : FindQuery) : ∀ left dir path, FailsWith E (fs.find q left dir path)
  | 0, _, _ => (findRecord_fails _).bind fun _ => findRecord_fails _
  | left + 1, dir, path => by
    have hinner : FailsWith E (fs.findInner q (fs.find q left) dir path) :=
      (FailsWith.onFst (readdir_fails hE hfs dir)).bind fun es =>
        (findRecord_fails _).bind fun _ =>
          findEntries_fails hE hfs q (find_fails q left) dir path es
    refine (findRecord_fails _).bind fun _ => ?_
    refine .ite (fun _ => findRecord_fails _) fun _ => FailsWith.get.bind fun w => ?_
    refine (FailsWith.lift (bailIf_errs hE _ _)).bind fun _ => (onFind_fails _).bind fun _ => ?_
    refine FailsWith.attempt hinner fun r => ?_
    cases r with
    | error e => exact (findRecord_fails _).bind fun _ => .throw (.inr rfl)
    | ok u => exact onFind_fails _

theorem findPath_fails (q : FindQuery) (path : Text) : FailsWith E (fs.findPath q path) :=
  (FailsWith.onFst (resolve_fails hE hfs path)).bind fun _ => find_fails hE hfs q _ _ _

end Fs

/-! ## Copies -/

omit [Noting β] in
theorem hostCall_fails {α : Type} {op : HostOp η α} {E' : OsError → Prop} {wrap : OsError → Error}
    (hop : FailsWith E' op) (h : ∀ e, E' e → E (wrap e)) : FailsWith E (hostCall wrap op) := by
  refine ⟨fun w hw => ?_, fun w e w' he => ?_⟩
  · unfold hostCall
    cases hx : op w.host with
    | ok a t => exact hop.keeps.ok hw hx
    | error e t => exact hop.keeps.error hw hx
  · unfold hostCall at he
    cases hx : op w.host with
    | ok a t => rw [hx] at he; cases he
    | error e' t =>
      rw [hx] at he
      obtain ⟨rfl, rfl⟩ := EStateM.Result.error.inj he
      exact (hop.errs _ e' t hx).imp_left (h e')

/-- Of a call that is caught. -/
theorem hostCall_marks {α : Type} {op : HostOp η α} {E' : OsError → Prop} (hop : FailsWith E' op) :
    Keeps hasNote (onSnd (hostCall hostError op) : CopyM β η α) :=
  (FailsWith.onSnd (hostCall_fails (E := fun _ => True) hop fun _ _ => trivial)).keeps

theorem record_fails (e : CopyEvent η) : FailsWith E (record e : CopyM β η Unit) :=
  .onSnd (.modify fun _ h => h)

theorem report_fails (f : Report → Report) : FailsWith E (report f : CopyM β η Unit) :=
  .onSnd (.modify fun _ h => h)

namespace Copier

variable {c : Copier β η φ} (hE : Error.Closed E) (hfs : c.fs.Answers E) (hhost : c.host.Answers E)

include hE hfs hhost

omit [Noting β] hE hfs in
/-- A call of the host, with no context or with some. -/
theorem call_fails {α : Type} {op : HostOp η α} (h : c.host.Call (fun _ => True) op) :
    FailsWith E (hostCall hostError op) := hostCall_fails (hhost.call h) fun _ he => he

omit [Noting β] hfs in
theorem callIn_fails {α : Type} {op : HostOp η α} (text : OsError → String)
    (h : c.host.Call (fun _ => True) op) :
    FailsWith E (hostCall (fun e => .context (text e) (hostError e)) op) :=
  hostCall_fails (hhost.call h) fun _ he => hE.context he

theorem manifest_fails (loc : Loc) (src : Text) (dest : HostPath) (target : Option Text) :
    FailsWith E (c.manifest loc src dest target) := by
  refine .ite (fun _ => ?_) fun _ => .pure _
  refine (FailsWith.onFst (Fs.inode_fails hE hfs loc)).bind fun i => ?_
  exact (FailsWith.onSnd (hostCall_fails (hhost.call .manifestLine) fun _ _ => hE.json _)).bind fun _ =>
    .onSnd (call_fails hhost .manifestNewline)

/-- What goes wrong is let be. -/
theorem setMtime_fails (loc : Loc) (dest : HostPath) : FailsWith E (c.setMtime loc dest) := by
  refine FailsWith.attempt_any (FailsWith.onFst (Fs.inode_fails hE hfs loc)).keeps fun r => ?_
  cases r with
  | error e => exact .pure _
  | ok i => exact FailsWith.attempt_any (hostCall_marks (hhost.call (.setFileMtime trivial))) fun _ => .pure _

omit [Noting β] hE hfs in
theorem writePiece_fails (file : φ) (p : Piece) : FailsWith E (c.writePiece file p) := by
  have hseek : ∀ steps left, FailsWith E (c.seekPast file steps left) := by
    intro steps
    induction steps with
    | zero => exact fun _ => .pure _
    | succ steps ih =>
      intro left
      refine .ite (fun _ => ?_) fun _ => .pure _
      exact (call_fails hhost .seek).bind fun _ => ih _
  cases p with
  | data d => exact call_fails hhost .writeAll
  | zeros n => exact hseek _ _

theorem writeFile_fails (loc : Loc) (i : Inode) (tmp : HostPath) : FailsWith E (c.writeFile loc i tmp) := by
  have hsync (file : φ) : FailsWith E (onSnd (hostCall
      (fun e => .context s!"flushing {tmp.display}" (hostError e)) (c.host.syncAll file)) : CopyM β η Unit) :=
    .onSnd (callIn_fails hE hhost _ .syncAll)
  refine (FailsWith.onSnd (callIn_fails hE hhost _ (.create trivial))).bind fun file => ?_
  refine (Fs.readRange_fails hE hfs (writePiece_fails hhost file) loc _ _).bind fun _ => ?_
  refine (FailsWith.onSnd (call_fails hhost .setLen)).bind fun _ => .ite (fun _ => ?_) fun _ => hsync file
  exact (FailsWith.onSnd (call_fails hhost .setPermissions)).bind fun _ => hsync file

omit hhost in
theorem targetIsDir_fails (target src : Text) : FailsWith E (c.targetIsDir target src) := by
  refine FailsWith.attempt_any (FailsWith.onFst (Fs.resolve_fails hE hfs _)).keeps fun r => ?_
  cases r with
  | error e => exact .pure _
  | ok loc =>
    refine FailsWith.attempt_any (FailsWith.onFst (Fs.inode_fails hE hfs loc)).keeps fun r => ?_
    cases r with
    | error e => exact .pure _
    | ok i => exact .pure _

theorem symlink_fails (target : Text) (dest : HostPath) (src : Text) :
    FailsWith E (c.symlink target dest src) := by
  have hcall (kind : LinkKind) (target : Text) :
      FailsWith E (onSnd (hostCall hostError (c.host.symlink kind target dest)) : CopyM β η Unit) :=
    .onSnd (call_fails hhost (.symlink trivial))
  exact .ite (fun _ => (targetIsDir_fails hE hfs _ _).bind fun _ => hcall _ _) fun _ => hcall _ _

theorem copySymlink_fails (loc : Loc) (src : Text) (dest : HostPath) :
    FailsWith E (c.copySymlink loc src dest) := by
  refine (FailsWith.onFst (Fs.readSymlinkTarget_fails hE hfs loc)).bind fun _ => ?_
  refine (manifest_fails hE hfs hhost _ _ _ _).bind fun _ => ?_
  refine FailsWith.attempt_any (symlink_fails hE hfs hhost _ _ _).keeps fun r => ?_
  cases r with
  | error e => exact report_fails _
  | ok u => exact report_fails _

theorem copyFile_fails (loc : Loc) (i : Inode) (src : Text) (dest : HostPath) :
    FailsWith E (c.copyFile loc i src dest) := by
  refine FailsWith.attempt (writeFile_fails hE hfs hhost loc i _) fun r => ?_
  cases r with
  | error e => exact FailsWith.attempt_any (hostCall_marks (hhost.call (.removeFile trivial))) fun _ => .throw (.inr rfl)
  | ok u =>
    refine FailsWith.mono ?_ fun _ => .inl
    refine (FailsWith.onSnd (callIn_fails hE hhost _ (.rename trivial trivial))).bind fun _ => ?_
    exact (setMtime_fails hE hfs hhost loc dest).bind fun _ => (report_fails _).bind fun _ =>
      manifest_fails hE hfs hhost _ _ _ _

omit hfs in
theorem makeWay_fails (dest : HostPath) : FailsWith E (c.makeWay dest) := by
  refine FailsWith.attempt_any (hostCall_marks (hhost.call (.symlinkMetadata trivial))) fun r => ?_
  cases r with
  | error e => exact .pure _
  | ok b => exact (FailsWith.lift (bailIf_errs hE _ _)).bind fun _ =>
      .onSnd (callIn_fails hE hhost _ (.removeFile trivial))

theorem copyLeaf_fails (loc : Loc) (src : Text) (dest : HostPath) :
    FailsWith E (c.copyLeaf loc src dest) := by
  refine FailsWith.get.bind fun s => (record_fails _).bind fun _ => ?_
  refine (FailsWith.onFst (Fs.inode_fails hE hfs loc)).bind fun i => ?_
  refine (makeWay_fails hE hhost dest).bind fun _ => ?_
  refine .ite (fun _ => copySymlink_fails hE hfs hhost _ _ _) fun _ => ?_
  exact .ite (fun _ => report_fails _) fun _ => copyFile_fails hE hfs hhost _ _ _ _

omit hhost in
theorem skips_fails (entry : Entry) (dir : Loc) : FailsWith E (c.skips entry dir) :=
  .ite (fun _ => .pure _) fun _ => .ite (fun _ => .pure _) fun _ =>
    .ite (fun _ => .onFst (Fs.isSnapshot_fails hE hfs _)) fun _ => .pure _

variable {recurse : Recurse β η} (hrec : ∀ dir src rel dest, FailsWith E (recurse dir src rel dest))

include hrec

theorem copyEntry_fails (entry : Entry) (dir : Loc) (src rel : Text) (dest : HostPath) :
    FailsWith E (c.copyEntry recurse entry dir src rel dest) := by
  refine (skips_fails hE hfs entry dir).bind fun skip => .ite (fun _ => report_fails _) fun _ => ?_
  refine (FailsWith.onFst (Fs.inode_fails hE hfs _)).bind fun i => ?_
  exact .ite (fun _ => hrec _ _ _ _) fun _ => copyLeaf_fails hE hfs hhost _ _ _

theorem tryEntry_fails (entry : Entry) (dir : Loc) (src rel : Text) (dest : HostPath) :
    FailsWith E (c.tryEntry recurse entry dir src rel dest) := by
  refine FailsWith.attempt_any (copyEntry_fails hE hfs hhost hrec entry dir src rel dest).keeps fun r => ?_
  refine (record_fails _).bind fun _ => ?_
  cases r with
  | ok u => exact .pure _
  | error e => exact report_fails _

/-- One by one, the entries fail with nothing. -/
theorem copyEntries_fails (dir : Loc) (src rel : Text) (dest : HostPath) :
    ∀ es taken, FailsWith E (c.copyEntries recurse dir src rel dest es taken)
  | [], _ => .pure _
  | e :: es, taken => by
    have next (taken : List Text) : FailsWith E (c.copyEntries recurse dir src rel dest es taken) :=
      copyEntries_fails dir src rel dest es taken
    refine (record_fails _).bind fun _ => ?_
    refine .ite (fun _ => (report_fails _).bind fun _ => next _) fun _ => ?_
    refine .ite (fun _ => FailsWith.bind (report_fails _) fun _ => ?_) fun _ => ?_ <;>
    · refine .ite (fun _ => (report_fails _).bind fun _ => next _) fun _ => ?_
      exact (tryEntry_fails hE hfs hhost hrec _ _ _ _ _).bind fun _ => next _

omit hrec

theorem enter_fails (dir : Loc) (src : Text) (dest : HostPath) : FailsWith E (c.enter dir src dest) := by
  have hmake : FailsWith E (do
      onSnd (hostCall (fun e => .context s!"creating {dest.display}" (hostError e))
        (c.host.createDirAll dest))
      report fun r => { r with dirs := r.dirs + 1 }
      c.manifest dir src dest none : CopyM β η Unit) :=
    (FailsWith.onSnd (callIn_fails hE hhost _ (.createDirAll trivial))).bind fun _ =>
      (report_fails _).bind fun _ => manifest_fails hE hfs hhost _ _ _ _
  refine FailsWith.attempt_any (hostCall_marks (hhost.call (.symlinkMetadata trivial))) fun r => ?_
  cases r with
  | error e => exact hmake
  | ok b => exact (FailsWith.lift (bailIf_errs hE _ _)).bind fun _ => hmake

include hrec in
theorem copyDirInner_fails (dir : Loc) (src rel : Text) (dest : HostPath) :
    FailsWith E (c.copyDirInner recurse dir src rel dest) := by
  refine FailsWith.attempt (enter_fails hE hfs hhost dir src dest) fun r => ?_
  cases r with
  | error e => exact (record_fails _).bind fun _ => .throw (.inr rfl)
  | ok u =>
    refine FailsWith.mono ?_ fun _ => .inl
    refine (record_fails _).bind fun _ => ?_
    refine (FailsWith.onFst (Fs.readdir_fails hE hfs dir)).bind fun es => ?_
    refine (record_fails _).bind fun _ => ?_
    exact (copyEntries_fails hE hfs hhost hrec dir src rel dest es []).bind fun _ => setMtime_fails hE hfs hhost dir dest

theorem copyDir_fails : ∀ left dir src rel dest, FailsWith E (c.copyDir left dir src rel dest)
  | 0, _, _, _, _ => (record_fails _).bind fun _ => .throw (hE.msg _)
  | left + 1, dir, src, rel, dest => by
    refine (record_fails _).bind fun _ => ?_
    refine FailsWith.get.bind fun w => (FailsWith.lift (bailIf_errs hE _ _)).bind fun _ => ?_
    refine FailsWith.bind (.onSnd (.modify fun _ h => h)) fun _ => ?_
    refine FailsWith.attempt (copyDirInner_fails hE hfs hhost (copyDir_fails left) dir src rel dest) fun r => ?_
    exact FailsWith.bind (.onSnd (.modify fun _ h => h)) fun _ => .lift fun _ he => .inr he

theorem copy_fails (src : Loc) (srcPath : Text) (dest : HostPath) :
    FailsWith E (c.copy src srcPath dest) := by
  refine (FailsWith.onFst (Fs.inode_fails hE hfs src)).bind fun i => ?_
  refine .ite (fun _ => copyDir_fails hE hfs hhost _ _ _ _ _) fun _ => ?_
  refine FailsWith.attempt_any (hostCall_marks (hhost.isDir dest)) fun r => ?_
  split
  · exact copyLeaf_fails hE hfs hhost _ _ _
  · exact copyLeaf_fails hE hfs hhost _ _ _

end Copier

end BtrfsPeek
