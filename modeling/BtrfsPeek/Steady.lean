import BtrfsPeek.ExitCodes
import BtrfsPeek.Fs.Cache

/-!
# What a run depends on

A command depends on the devices by their content alone (`System.main_steady`): the same is
printed, the host is left the same, and the exit code is the same, however a device splits
its answers and however often it interrupts them.
-/

namespace BtrfsPeek

open Effect

variable {β η φ ω τ : Type}

/-! ## The filesystem -/

/-- States with the same in every cache. -/
abbrev Matched (s t : FsState β) : Prop := Same (fun _ => True) s t

theorem devFree_matched : DevFree (Matched (β := β)) := fun _ _ _ _ h => ⟨h.nodes, h.roots, h.last, trivial⟩

namespace Fs

variable {fs : Fs β} (hfs : fs.Honest)

include hfs

theorem readNode_matched (p : Nat) : Alike Matched (fs.readNode p) :=
  readNode_same hfs (fun _ _ _ => trivial) (fun _ _ _ _ _ => trivial) p

theorem tree_matched (id : Nat) : Alike Matched (fs.tree id) :=
  tree_same (readNode_matched hfs) (fun _ _ _ => trivial) id

theorem compressedExtent_matched (diskBytenr diskNumBytes algo ramBytes : Nat) :
    Alike Matched (fs.compressedExtent diskBytenr diskNumBytes algo ramBytes) := by
  intro s t h
  unfold compressedExtent
  rw [bind_of_ok (get_run s), bind_of_ok (get_run t)]
  have hcached : cachedExtent diskBytenr s = cachedExtent diskBytenr t := by
    unfold cachedExtent
    rw [h.last]
  rw [hcached]
  cases cachedExtent diskBytenr t with
  | some data => exact ⟨rfl, h⟩
  | none =>
    refine (decompressExtent_alike devFree_matched hfs _ _ _ _).bind (fun plain => ?_) s t h
    exact (Alike.modify fun s t h => ⟨h.nodes, h.roots, rfl, trivial⟩).bind fun _ => .pure _

theorem reads_matched (loc : Loc) : ReadsAlike fs Matched loc :=
  ⟨readLogical_alike devFree_matched hfs, fun _ _ _ _ _ _ _ _ _ _ => compressedExtent_matched hfs _ _ _ _⟩

theorem inode_matched (loc : Loc) : Alike Matched (fs.inode loc) :=
  inode_alike (readNode_matched hfs) (tree_matched hfs) loc

theorem readdir_matched (dir : Loc) : Alike Matched (fs.readdir dir) :=
  readdir_alike (readNode_matched hfs) (tree_matched hfs) dir

theorem isSnapshot_matched (id : Nat) : Alike Matched (fs.isSnapshot id) :=
  isSnapshot_alike (readNode_matched hfs) id

theorem resolve_matched (path : Text) : Alike Matched (fs.resolve path) :=
  resolve_alike (readNode_matched hfs) (tree_matched hfs) (fun _ _ _ _ => reads_matched hfs _) path

theorem readSymlinkTarget_matched (loc : Loc) : Alike Matched (fs.readSymlinkTarget loc) :=
  readSymlinkTarget_alike (readNode_matched hfs) (tree_matched hfs) (reads_matched hfs loc)

theorem readRange_matched (loc : Loc) (start stop : Nat) (sink : Sink τ) :
    Alike (WithSame Matched) (fs.readRange loc start stop sink) :=
  readRange_alike (readNode_matched hfs) (tree_matched hfs) (reads_matched hfs loc) start stop sink

theorem describe_matched (loc : Loc) (path : Text) (subvol : Bool) :
    Alike Matched (fs.describe loc path subvol) := by
  refine (inode_matched hfs loc).bind fun i => .ite (fun _ => ?_) fun _ => .pure _
  exact (readSymlinkTarget_matched hfs loc).bind fun _ => .pure _

theorem stat_matched (loc : Loc) (path : Text) : Alike Matched (fs.stat loc path) :=
  (describe_matched hfs loc path false).bind fun _ =>
    (extents_alike (readNode_matched hfs) (tree_matched hfs) loc).bind fun _ => .pure _

theorem cat_matched (out : Stdout ω) (path : Text) (offset : Nat) (length : Option Nat) :
    Alike (WithSame Matched) (fs.cat out path offset length) := by
  refine (Alike.onFst (resolve_matched hfs path)).bind fun loc => ?_
  refine (Alike.onFst (inode_matched hfs loc)).bind fun i => (Alike.lift _).bind fun _ => ?_
  exact (readRange_matched hfs loc _ _ _).bind fun _ => .onSnd _

/-! ## Searching -/

theorem findSkips_matched (q : FindQuery) (e : Entry) : Alike (WithSame Matched) (fs.findSkips q e) := by
  refine .ite (fun _ => .pure _) fun _ => .ite (fun _ => .pure _) fun _ => ?_
  exact .ite (fun _ => .onFst (isSnapshot_matched hfs _)) fun _ => .pure _

theorem findEntries_matched (q : FindQuery) {search : Search β}
    (hsearch : ∀ dir path, Alike (WithSame Matched) (search dir path)) (dir : Loc) (path : Text) :
    ∀ es, Alike (WithSame Matched) (fs.findEntries q search dir path es)
  | [] => .pure _
  | e :: es => by
    have next : Alike (WithSame Matched) (fs.findEntries q search dir path es) :=
      findEntries_matched q hsearch dir path es
    refine (Alike.onSnd _).bind fun _ => .ite (fun _ => .ite (fun _ => ?_) fun _ => ?_) fun _ => ?_
    on_goal 1 => refine (Alike.onSnd _).bind fun _ => (Alike.onSnd _).bind fun _ => ?_
    on_goal 2 => refine (Alike.onSnd _).bind fun _ => ?_
    all_goals
      refine (findSkips_matched hfs q e).bind fun skip => .ite (fun _ => ?_) fun _ => next
      refine (hsearch _ _).attempt.bind fun r => ?_
      cases r with
      | ok u => exact next
      | error err => exact (Alike.onSnd _).bind fun _ => (Alike.onSnd _).bind fun _ => next

theorem find_matched (q : FindQuery) : ∀ left dir path, Alike (WithSame Matched) (fs.find q left dir path)
  | 0, _, _ => (Alike.onSnd _).bind fun _ => .onSnd _
  | left + 1, dir, path => by
    have hinner : Alike (WithSame Matched) (fs.findInner q (fs.find q left) dir path) :=
      (Alike.onFst (readdir_matched hfs dir)).bind fun es => (Alike.onSnd _).bind fun _ =>
        findEntries_matched hfs q (find_matched q left) dir path es
    refine (Alike.onSnd _).bind fun _ => .ite (fun _ => .onSnd _) fun _ => ?_
    refine Alike.get_snd (fun s t h => by simp only [h]) fun w => ?_
    refine (Alike.lift _).bind fun _ => (Alike.onSnd _).bind fun _ => hinner.attempt.bind fun r => ?_
    cases r with
    | error e => exact (Alike.onSnd _).bind fun _ => .throw _
    | ok u => exact .onSnd _

theorem findPath_matched (q : FindQuery) (path : Text) : Alike (WithSame Matched) (fs.findPath q path) :=
  (Alike.onFst (resolve_matched hfs path)).bind fun _ => find_matched hfs q _ _ _

end Fs

/-! ## Opening -/

/-- What opens the devices listed, and nothing else. -/
def Opener.only (opener : Opener β) (devices : List String) : Opener β := fun path s =>
  if path ∈ devices then opener path s else (.error ⟨.notFound, "not listed"⟩, s)

theorem SteadyOpener.only {opener : Opener β} (h : SteadyOpener opener) (devices : List String) :
    SteadyOpener (opener.only devices) where
  same path s t := by
    unfold Opener.only
    split_ifs
    · exact h.same path s t
    · rfl
  holds path s B hB := by
    unfold Opener.only at hB
    split_ifs at hB
    exact h.holds path s B hB

section openers

variable {opener opener' : Opener β} {p : Platform} {X : Crates}

theorem Fs.openDevices_congr : ∀ {paths : List String} (o : Opened β),
    (∀ path ∈ paths, opener path = opener' path) →
    Fs.openDevices p X opener paths o = Fs.openDevices p X opener' paths o
  | [], _, _ => rfl
  | path :: paths, o, h => by
    have hdevice : Fs.openDevice p opener path = Fs.openDevice p opener' path := by
      unfold Fs.openDevice Device.open
      rw [h path (.head _)]
    simp only [Fs.openDevices, hdevice, fun o => openDevices_congr o fun path hp => h path (.tail _ hp)]

/-- A filesystem depends on what opens its own devices only. -/
theorem Fs.open_congr {paths : List String} (h : ∀ path ∈ paths, opener path = opener' path) :
    Fs.open p X opener paths = Fs.open p X opener' paths := by
  unfold Fs.open
  rw [openDevices_congr _ h]

theorem Fs.open_only (opener : Opener β) (devices : List String) :
    Fs.open p X opener devices = Fs.open p X (opener.only devices) devices :=
  open_congr fun path hp => by
    funext s
    rw [Opener.only, if_pos hp]

end openers

/-! ## Copying -/

theorem report_matched (f : Report → Report) : Alike (Fs.WithSame Matched) (report f : CopyM β η Unit) :=
  .onSnd _

namespace Copier

open Fs (WithSame inode_matched)

variable {c : Copier β η φ} (hfs : c.fs.Honest)

include hfs

theorem manifest_matched (loc : Loc) (src : Text) (dest : HostPath) (target : Option Text) :
    Alike (WithSame Matched) (c.manifest loc src dest target) := by
  refine .ite (fun _ => ?_) fun _ => .pure _
  exact (Alike.onFst (inode_matched hfs loc)).bind fun _ => (Alike.onSnd _).bind fun _ => .onSnd _

theorem setMtime_matched (loc : Loc) (dest : HostPath) : Alike (WithSame Matched) (c.setMtime loc dest) := by
  refine (Alike.onFst (inode_matched hfs loc)).attempt.bind fun r => ?_
  cases r with
  | error e => exact .pure _
  | ok i => exact (Alike.onSnd _).attempt.bind fun _ => .pure _

theorem writeFile_matched (loc : Loc) (i : Inode) (tmp : HostPath) :
    Alike (WithSame Matched) (c.writeFile loc i tmp) := by
  refine (Alike.onSnd _).bind fun file => (Fs.readRange_matched hfs loc _ _ _).bind fun _ => ?_
  refine (Alike.onSnd _).bind fun _ => .ite (fun _ => ?_) fun _ => .onSnd _
  exact (Alike.onSnd _).bind fun _ => .onSnd _

theorem targetIsDir_matched (target src : Text) : Alike (WithSame Matched) (c.targetIsDir target src) := by
  refine (Alike.onFst (Fs.resolve_matched hfs _)).attempt.bind fun r => ?_
  cases r with
  | error e => exact .pure _
  | ok loc =>
    refine (Alike.onFst (inode_matched hfs loc)).attempt.bind fun r => ?_
    cases r with
    | error e => exact .pure _
    | ok i => exact .pure _

theorem copySymlink_matched (loc : Loc) (src : Text) (dest : HostPath) :
    Alike (WithSame Matched) (c.copySymlink loc src dest) := by
  have hlink (target : Text) : Alike (WithSame Matched) (c.symlink target dest src) := by
    refine .ite (fun _ => ?_) fun _ => .onSnd _
    exact (targetIsDir_matched hfs target src).bind fun _ => .onSnd _
  refine (Alike.onFst (Fs.readSymlinkTarget_matched hfs loc)).bind fun _ => ?_
  refine (manifest_matched hfs _ _ _ _).bind fun _ => (hlink _).attempt.bind fun r => ?_
  cases r with
  | error e => exact report_matched _
  | ok u => exact report_matched _

theorem copyFile_matched (loc : Loc) (i : Inode) (src : Text) (dest : HostPath) :
    Alike (WithSame Matched) (c.copyFile loc i src dest) := by
  refine (writeFile_matched hfs loc i _).attempt.bind fun r => ?_
  cases r with
  | error e => exact (Alike.onSnd _).attempt.bind fun _ => .throw _
  | ok u =>
    refine (Alike.onSnd _).bind fun _ => (setMtime_matched hfs loc dest).bind fun _ => ?_
    exact (Alike.onSnd _).bind fun _ => manifest_matched hfs _ _ _ _

theorem copyLeaf_matched (loc : Loc) (src : Text) (dest : HostPath) :
    Alike (WithSame Matched) (c.copyLeaf loc src dest) := by
  have hway : Alike (WithSame Matched) (c.makeWay dest) := by
    refine (Alike.onSnd _).attempt.bind fun r => ?_
    cases r with
    | error e => exact .pure _
    | ok b => exact (Alike.lift _).bind fun _ => .onSnd _
  refine Alike.get_snd (fun s t h => by simp only [h]) fun w => (Alike.onSnd _).bind fun _ => ?_
  refine (Alike.onFst (inode_matched hfs loc)).bind fun i => hway.bind fun _ => ?_
  refine .ite (fun _ => copySymlink_matched hfs loc src dest) fun _ => ?_
  exact .ite (fun _ => report_matched _) fun _ => copyFile_matched hfs loc i src dest

section entries

variable {recurse : Recurse β η} (hrec : ∀ loc src rel dest, Alike (WithSame Matched) (recurse loc src rel dest))

include hrec

theorem tryEntry_matched (e : Entry) (dir : Loc) (src rel : Text) (dest : HostPath) :
    Alike (WithSame Matched) (c.tryEntry recurse e dir src rel dest) := by
  have hskips : Alike (WithSame Matched) (c.skips e dir) := by
    refine .ite (fun _ => .pure _) fun _ => .ite (fun _ => .pure _) fun _ => ?_
    exact .ite (fun _ => .onFst (Fs.isSnapshot_matched hfs _)) fun _ => .pure _
  have hentry : Alike (WithSame Matched) (c.copyEntry recurse e dir src rel dest) := by
    refine hskips.bind fun skip => .ite (fun _ => .onSnd _) fun _ => ?_
    refine (Alike.onFst (inode_matched hfs _)).bind fun i => .ite (fun _ => ?_) fun _ => ?_
    · exact hrec _ _ _ _
    · exact copyLeaf_matched hfs _ _ _
  refine hentry.attempt.bind fun r => (Alike.onSnd _).bind fun _ => ?_
  cases r with
  | ok u => exact .pure _
  | error err => exact .onSnd _

theorem copyEntries_matched (dir : Loc) (src rel : Text) (dest : HostPath) :
    ∀ es taken, Alike (WithSame Matched) (c.copyEntries recurse dir src rel dest es taken)
  | [], _ => .pure _
  | e :: es, taken => by
    have next (taken : List Text) : Alike (WithSame Matched) (c.copyEntries recurse dir src rel dest es taken) :=
      copyEntries_matched dir src rel dest es taken
    refine (Alike.onSnd _).bind fun _ => .ite (fun _ => (Alike.onSnd _).bind fun _ => next _) fun _ => ?_
    refine .ite (fun _ => (report_matched _).bind fun _ => ?_) fun _ => ?_
    all_goals
      refine .ite (fun _ => (report_matched _).bind fun _ => next _) fun _ => ?_
      exact (tryEntry_matched hfs hrec _ _ _ _ _).bind fun _ => next _

theorem copyDirInner_matched (dir : Loc) (src rel : Text) (dest : HostPath) :
    Alike (WithSame Matched) (c.copyDirInner recurse dir src rel dest) := by
  have henter : Alike (WithSame Matched) (c.enter dir src dest) := by
    have hrest : Alike (WithSame Matched) (do
        onSnd (hostCall (fun e => .context s!"creating {dest.display}" (hostError e))
          (c.host.createDirAll dest))
        report fun r => { r with dirs := r.dirs + 1 }
        c.manifest dir src dest none : CopyM β η Unit) :=
      (Alike.onSnd _).bind fun _ => (Alike.onSnd _).bind fun _ => manifest_matched hfs _ _ _ _
    refine (Alike.onSnd _).attempt.bind fun r => ?_
    cases r with
    | error e => exact hrest
    | ok b => exact (Alike.lift _).bind fun _ => hrest
  refine henter.attempt.bind fun r => ?_
  cases r with
  | error e => exact (Alike.onSnd _).bind fun _ => .throw _
  | ok u =>
    refine (Alike.onSnd _).bind fun _ => (Alike.onFst (Fs.readdir_matched hfs dir)).bind fun es => ?_
    refine (Alike.onSnd _).bind fun _ => (copyEntries_matched hfs hrec dir src rel dest es []).bind fun _ => ?_
    exact setMtime_matched hfs dir dest

end entries

theorem copyDir_matched : ∀ left dir src rel dest, Alike (WithSame Matched) (c.copyDir left dir src rel dest)
  | 0, _, _, _, _ => (Alike.onSnd _).bind fun _ => .throw _
  | left + 1, dir, src, rel, dest => by
    refine (Alike.onSnd _).bind fun _ => ?_
    refine Alike.get_snd (fun s t h => by simp only [h]) fun w => (Alike.lift _).bind fun _ => (Alike.onSnd _).bind fun _ => ?_
    refine (copyDirInner_matched hfs (copyDir_matched left) dir src rel dest).attempt.bind fun r => ?_
    exact (Alike.onSnd _).bind fun _ => .lift r

theorem copy_matched (src : Loc) (srcPath : Text) (dest : HostPath) :
    Alike (WithSame Matched) (c.copy src srcPath dest) := by
  refine (Alike.onFst (inode_matched hfs src)).bind fun i => ?_
  refine .ite (fun _ => copyDir_matched hfs _ _ _ _ _) fun _ => (Alike.onSnd _).attempt.bind fun r => ?_
  split <;> exact copyLeaf_matched hfs _ _ _

end Copier

/-! ## Commands -/

/-- The same caches, the same host and the same terminal. -/
structure World.Agrees (w w' : World β η ω) : Prop where
  fs : Matched w.fs w'.fs
  host : w.host = w'.host
  term : w.term = w'.term

theorem onPart_matched {σ α : Type} {R : σ → σ → Prop} {get : World β η ω → σ}
    {set : World β η ω → σ → World β η ω} {x : EStateM Error σ α} (hx : Alike R x)
    (hget : ∀ w w', World.Agrees w w' → R (get w) (get w'))
    (hset : ∀ w w' s s', World.Agrees w w' → R s s' → World.Agrees (set w s) (set w' s')) :
    Alike World.Agrees (onPart get set x) := by
  intro w w' h
  obtain ⟨hv, hr⟩ := hx _ _ (hget w w' h)
  unfold onPart
  cases hs : x (get w) <;> cases ht : x (get w') <;> rw [hs, ht] at hv hr <;> cases hv
  · exact ⟨rfl, hset _ _ _ _ h hr⟩
  · exact ⟨rfl, hset _ _ _ _ h hr⟩

theorem onFs_matched {α : Type} {x : FsM β α} (hx : Alike Matched x) :
    Alike World.Agrees (onFs x : RunM β η ω α) :=
  onPart_matched hx (fun _ _ h => h.fs) fun _ _ _ _ h hs => ⟨hs, h.host, h.term⟩

theorem question_matched {α : Type} (r : Except Error α) :
    Alike World.Agrees (question r : RunM β η ω α) := onFs_matched (.lift r)

theorem printLine_matched (out : Stdout ω) (t : Text) :
    Alike World.Agrees (printLine out t : RunM β η ω Unit) := by
  intro w w' h
  unfold printLine
  rw [h.term]
  cases out.writeAll (Utf8.toUtf8 (t ++ ['\n'])) w'.term with
  | ok u o => exact ⟨rfl, h.fs, h.host, rfl⟩
  | error e o => exact ⟨rfl, h.fs, h.host, rfl⟩

theorem printLines_matched (out : Stdout ω) (ts : List Text) :
    Alike World.Agrees (printLines out ts : RunM β η ω Unit) := .forEach (printLine_matched out) ts

namespace System

variable {S : System β η φ ω} {fs : Fs β} (hfs : fs.Honest) (json : Bool)

include hfs

theorem runLs_matched (path : Text) (long : Bool) : Alike World.Agrees (S.runLs json fs path long) := by
  have hdescribe (loc : Loc) (path : Text) (subvol : Bool) := Fs.describe_matched hfs loc path subvol
  refine (onFs_matched (Fs.resolve_matched hfs path)).bind fun loc => ?_
  refine (onFs_matched (Fs.inode_matched hfs loc)).bind fun i => .ite (fun _ => ?_) fun _ => ?_
  · exact (onFs_matched (hdescribe _ _ _)).bind fun row =>
      .ite (fun _ => printLine_matched _ _) fun _ => printLine_matched _ _
  · refine (onFs_matched (Fs.readdir_matched hfs loc)).bind fun es => .ite (fun _ => ?_) fun _ => printLines_matched _ _
    exact (onFs_matched (.mapEach (fun e => hdescribe _ _ _) es)).bind fun rows =>
      .ite (fun _ => printLine_matched _ _) fun _ => printLines_matched _ _

theorem runFind_matched (path : Text) (name : Option Text) (ty : Option Char) (maxDepth : Option Nat)
    (oneSubvolume noSnapshots : Bool) :
    Alike World.Agrees (S.runFind json fs path name ty maxDepth oneSubvolume noSnapshots) := by
  refine (question_matched _).bind fun _ => (question_matched _).bind fun name => ?_
  refine (onFs_matched (.withLocal _ (Fs.findPath_matched hfs _ path).attempt)).bind fun r => ?_
  refine (printLines_matched _ _).bind fun _ => (printLines_matched _ _).bind fun _ => ?_
  exact (question_matched _).bind fun _ => .ite (fun _ => printLine_matched _ _) fun _ => .pure _

omit hfs in
theorem runCopy_matched {c : Copier β η φ} (hc : c.fs.Honest) (loc : Loc) (src : Text) (dest : HostPath) :
    Alike World.Agrees (runCopy c loc src dest : RunM β η ω Report) := by
  intro w w' h
  obtain ⟨hv, hr, hw⟩ := Copier.copy_matched hc loc src dest (w.fs, Work.start w.host)
    (w'.fs, Work.start w'.host) ⟨h.fs, by rw [h.host]⟩
  unfold runCopy
  cases hs : c.copy loc src dest (w.fs, Work.start w.host) <;>
    cases ht : c.copy loc src dest (w'.fs, Work.start w'.host) <;>
    rw [hs, ht] at hv hr hw <;> cases hv
  · exact ⟨congrArg (fun u : Work η => Except.ok u.report) hw, hr, congrArg Work.host hw, h.term⟩
  · exact ⟨rfl, hr, congrArg Work.host hw, h.term⟩

theorem runCp_matched (src : Text) (dest : HostPath) (exclude : List Text)
    (force oneSubvolume noSnapshots : Bool) (manifest : Option HostPath) :
    Alike World.Agrees (S.runCp json fs src dest exclude force oneSubvolume noSnapshots manifest) := by
  have hcreate : Alike World.Agrees (S.createManifest manifest : RunM β η ω Unit) := by
    cases manifest with
    | none => exact .pure _
    | some path =>
      intro w w' h
      simp only [createManifest]
      rw [h.host]
      cases S.host.create path w'.host with
      | ok f t => exact ⟨rfl, h.fs, rfl, h.term⟩
      | error e t => exact ⟨rfl, h.fs, rfl, h.term⟩
  have hend (r : Report) : Alike World.Agrees
      (if r.failures > 0 then failWith (.incomplete r.failures) else pure () : RunM β η ω Unit) :=
    .ite (fun _ => .throw _) fun _ => .pure _
  refine (question_matched _).bind fun globs => hcreate.bind fun _ => ?_
  refine (onFs_matched (Fs.resolve_matched hfs src)).bind fun loc => (question_matched _).bind fun _ => ?_
  refine Alike.bind (runCopy_matched hfs loc src dest) fun r => ?_
  refine .ite (fun _ => (printLine_matched _ _).bind fun _ => hend r) fun _ => ?_
  exact (printLines_matched _ _).bind fun _ => (printLine_matched _ _).bind fun _ => hend r

theorem runCmd_matched : ∀ cmd, Alike World.Agrees (S.runCmd json fs cmd)
  | .info => (onFs_matched (Fs.defaultSubvol_alike (Fs.readNode_matched hfs))).bind fun _ =>
      .ite (fun _ => printLine_matched _ _) fun _ => printLines_matched _ _
  | .subvols => (onFs_matched (Fs.subvols_alike (Fs.readNode_matched hfs) (Fs.tree_matched hfs))).bind fun _ =>
      (onFs_matched (Fs.defaultSubvol_alike (Fs.readNode_matched hfs))).bind fun _ =>
        .ite (fun _ => printLine_matched _ _) fun _ => printLines_matched _ _
  | .ls path long => runLs_matched hfs json path long
  | .stat path => (onFs_matched (Fs.resolve_matched hfs path)).bind fun loc =>
      (onFs_matched (Fs.stat_matched hfs loc path)).bind fun _ =>
        .ite (fun _ => printLine_matched _ _) fun _ => printLines_matched _ _
  | .cat path offset length => onPart_matched (Fs.cat_matched hfs S.stdout path offset length)
      (fun _ _ h => ⟨h.fs, h.term⟩) fun _ _ _ _ h hs => ⟨hs.1, h.host, hs.2⟩
  | .find path name ty maxDepth oneSubvolume noSnapshots =>
    runFind_matched hfs json path name ty maxDepth oneSubvolume noSnapshots
  | .cp src dest exclude force oneSubvolume noSnapshots manifest =>
    runCp_matched hfs json src dest exclude force oneSubvolume noSnapshots manifest

omit hfs in
/-- Opening gives the same filesystem, so all that follows is the same. -/
theorem run_matched {devices : List String} (hop : SteadyOpener (S.opener.only devices)) (cmd : Cmd)
    {w w' : World β η ω} (hfs : Same Fresh w.fs w'.fs) (hhost : w.host = w'.host) (hterm : w.term = w'.term) :
    Result.value (S.run devices json cmd w) = Result.value (S.run devices json cmd w') ∧
      World.Agrees (Result.state (S.run devices json cmd w)) (Result.state (S.run devices json cmd w')) := by
  obtain ⟨hv, hs⟩ := Fs.open_alike (p := S.platform) (X := S.crates) hop devices w.fs w'.fs hfs
  have hsame {s t : FsState β} (h : Same Fresh s t) : Matched s t := ⟨h.nodes, h.roots, h.last, trivial⟩
  unfold run
  rw [bind_run, bind_run]
  unfold onFs onPart
  dsimp only
  rw [Fs.open_only]
  cases hu : Fs.open S.platform S.crates (S.opener.only devices) devices w.fs <;>
    cases ht : Fs.open S.platform S.crates (S.opener.only devices) devices w'.fs <;>
    rw [hu, ht] at hv hs <;> cases hv
  · have hhonest := Fs.honest_of_open hop hu
    exact (printLines_matched _ _).bind (fun _ => runCmd_matched hhonest json cmd) _ _ ⟨hsame hs, hhost, hterm⟩
  · exact ⟨rfl, hsame hs, hhost, hterm⟩

omit hfs in
theorem main_matched {devices : List String} (hop : SteadyOpener (S.opener.only devices)) (cmd : Cmd)
    {w w' : World β η ω} (hfs : Same Fresh w.fs w'.fs) (hhost : w.host = w'.host) (hterm : w.term = w'.term) :
    (S.main devices json cmd w).1 = (S.main devices json cmd w').1 ∧
      World.Agrees (S.main devices json cmd w).2 (S.main devices json cmd w').2 := by
  obtain ⟨hv, hagree⟩ := run_matched json hop cmd hfs hhost hterm
  unfold main
  cases hs : S.run devices json cmd w <;> cases ht : S.run devices json cmd w' <;>
    rw [hs, ht] at hv hagree <;> cases hv
  · exact ⟨rfl, hagree⟩
  · rename_i stop u u'
    cases stop with
    | panicked => exact ⟨rfl, hagree⟩
    | failed e =>
      dsimp only
      split_ifs with hpipe
      · exact ⟨rfl, hagree⟩
      · have hprint := printLine_matched S.stderr (s!"btrfs-peek: {e.display}").toList u u' hagree
        unfold eprintln
        cases hx : printLine S.stderr (s!"btrfs-peek: {e.display}").toList u <;>
          cases hy : printLine S.stderr (s!"btrfs-peek: {e.display}").toList u' <;>
          rw [hx, hy] at hprint <;> obtain ⟨hv, hagree⟩ := hprint <;> cases hv
        · exact ⟨rfl, hagree⟩
        · exact ⟨rfl, hagree⟩

end System

/-- Where paths open the same way every time, and devices are of fixed content, a command ends
with the same exit code, prints the same and leaves the same on the host, whatever else the
devices' answers depend on. -/
theorem System.main_steady (S : System β η φ ω) (hop : SteadyOpener S.opener) (devices : List String)
    (json : Bool) (cmd : Cmd) {w w' : World β η ω} (hfs : Same Fresh w.fs w'.fs) (hhost : w.host = w'.host)
    (hterm : w.term = w'.term) :
    (S.main devices json cmd w).1 = (S.main devices json cmd w').1 ∧
      World.Agrees (S.main devices json cmd w).2 (S.main devices json cmd w').2 :=
  main_matched json (hop.only devices) cmd hfs hhost hterm

namespace Image

/-- Each read is interrupted as often as the state says, and then answered in full. -/
def interrupting (c : Content) : Backing Nat where
  readAt off len
    | 0 => (.ok (c.read off (min len (c.size - off))), 0)
    | n + 1 => (.error ⟨.interrupted, "Interrupted system call (os error 4)"⟩, n)
  fits {off len s s' b} h := by
    cases s with
    | zero =>
      cases h
      rw [Content.length_read]
      exact Nat.min_le_left _ _
    | succ n => cases h
  patience n := n
  steady off len n := by cases n <;> simp
  interrupted {off len s s' e} h _ := by
    cases s with
    | zero => cases h
    | succ n =>
      cases h
      exact Nat.lt_succ_self _

theorem holds_interrupting (c : Content) : (interrupting c).Holds c := by
  intro off len n
  cases n with
  | zero => exact c.holds_backing off len ()
  | succ n => rfl

/-- A system of one device of content `c`, whose output can be read. -/
def interruptedSystem (c : Content) : System Nat Unit Unit Bytes where
  platform := ⟨false⟩
  crates := crates
  serde := ⟨fun _ => [], fun _ => []⟩
  unicode := ⟨fun c => [c], fun _ => false, fun _ => false⟩
  globSet globs := .ok fun t => globs.any fun g => g t
  opener _ n := (.ok (interrupting c), n)
  host := emptyHost
  stdout := shown
  stderr := nullStream

theorem steady_interrupted (c : Content) : SteadyOpener (interruptedSystem c).opener where
  same _ _ _ := rfl
  holds _ _ _ h := by
    cases h
    exact ⟨c, holds_interrupting c⟩

theorem fresh_empty {β : Type} (dev dev' : β) : Same Fresh (FsState.empty dev) (FsState.empty dev') :=
  ⟨rfl, rfl, rfl, List.nodup_nil, rfl, rfl⟩

/-- A disk with a file `f` on it. -/
def fileDisk : Content := (image (oneFile [0x66]) []).content SIZE (by decide)

/-- What `ls` comes to where the disk interrupts `n` times. -/
def listing (n : Nat) : Nat × World Nat Unit Bytes :=
  (interruptedSystem fileDisk).main ["disk"] false (.ls ['/'] false) ⟨.empty n, (), []⟩

end Image

open Image in
/-- The file is listed, whether the disk interrupts or not. -/
theorem System.main_steady_interrupted :
    (listing 3).1 = (listing 0).1 ∧ World.Agrees (listing 3).2 (listing 0).2 ∧
      (listing 0).1 = 0 ∧ (listing 0).2.term = [0x66, 0x0A] := by
  have hfile : (listing 0).1 = 0 ∧ (listing 0).2.term = [0x66, 0x0A] := by decide +kernel
  have h : (listing 3).1 = (listing 0).1 ∧ World.Agrees (listing 3).2 (listing 0).2 :=
    System.main_steady _ (steady_interrupted fileDisk) _ _ _ (fresh_empty 3 0) rfl rfl
  exact ⟨h.1, h.2, hfile⟩

end BtrfsPeek
