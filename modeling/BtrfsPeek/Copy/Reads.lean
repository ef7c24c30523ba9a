import BtrfsPeek.Copy.Names
import BtrfsPeek.Copy.Calls
import BtrfsPeek.Copy.Find
import BtrfsPeek.Fs.Later

/-!
# What the walkers do to the filesystem

They read it. Each operation of the copier leads from a state to a later one
(`Copier.copyLeaf_reads`), whatever the image and the host are.
-/

namespace BtrfsPeek

open Effect

variable {β η φ τ : Type}

/-- `P` of the filesystem's state. -/
abbrev OfFs (P : FsState β → Prop) (s : FsState β × τ) : Prop := P s.1

section reads

variable {P : FsState β → Prop} {α : Type}

theorem onFst_reads {x : FsM β α} (h : Keeps P x) : Keeps (OfFs (τ := τ) P) (onFst x) := by
  rintro ⟨s, t⟩ hs
  have := h s hs
  unfold onFst
  dsimp only
  cases hx : x s <;> rw [hx] at this <;> exact this

theorem onSnd_reads (y : EStateM Error τ α) : Keeps (OfFs (β := β) P) (onSnd y) := by
  rintro ⟨s, t⟩ hs
  unfold onSnd
  dsimp only
  cases y t <;> exact hs

end reads

namespace Copier

variable {c : Copier β η φ} {s₀ : FsState β}

theorem call_reads {P : FsState β → Prop} {α : Type} {wrap : OsError → Error} (op : HostOp η α) :
    Keeps (OfFs P) (onSnd (hostCall wrap op) : CopyM β η α) := onSnd_reads _

theorem report_reads {P : FsState β → Prop} (f : Report → Report) :
    Keeps (OfFs P) (report f : CopyM β η Unit) := onSnd_reads _

theorem record_reads {P : FsState β → Prop} (e : CopyEvent η) :
    Keeps (OfFs P) (record e : CopyM β η Unit) := onSnd_reads _

theorem manifest_reads (loc : Loc) (src : Text) (dest : HostPath) (target : Option Text) :
    Keeps (OfFs (c.fs.Later s₀)) (c.manifest loc src dest target) := by
  refine .ite (fun _ => ?_) fun _ => .pure _
  exact (onFst_reads (Fs.inode_keeps loc)).bind fun _ => (call_reads _).bind fun _ => call_reads _

theorem setMtime_reads (loc : Loc) (dest : HostPath) :
    Keeps (OfFs (c.fs.Later s₀)) (c.setMtime loc dest) := by
  refine (onFst_reads (Fs.inode_keeps loc)).attempt.bind fun r => ?_
  cases r with
  | error e => exact .pure _
  | ok i => exact (call_reads _).attempt.bind fun _ => .pure _

theorem writeFile_reads (loc : Loc) (i : Inode) (tmp : HostPath) :
    Keeps (OfFs (c.fs.Later s₀)) (c.writeFile loc i tmp) := by
  refine (call_reads _).bind fun file => ?_
  refine (Fs.readRange_later loc 0 U64_MAX (c.writePiece file)).bind fun _ => ?_
  refine (call_reads _).bind fun _ => ?_
  refine .ite (fun _ => ?_) fun _ => call_reads _
  exact (call_reads _).bind fun _ => call_reads _

theorem targetIsDir_reads (target src : Text) :
    Keeps (OfFs (c.fs.Later s₀)) (c.targetIsDir target src) := by
  refine (onFst_reads (Fs.resolve_keeps _)).attempt.bind fun r => ?_
  cases r with
  | error e => exact .pure _
  | ok loc =>
    refine (onFst_reads (Fs.inode_keeps loc)).attempt.bind fun r => ?_
    cases r with
    | error e => exact .pure _
    | ok i => exact .pure _

theorem symlink_reads (target : Text) (dest : HostPath) (src : Text) :
    Keeps (OfFs (c.fs.Later s₀)) (c.symlink target dest src) := by
  refine .ite (fun _ => ?_) fun _ => call_reads _
  exact (targetIsDir_reads target src).bind fun _ => call_reads _

theorem copySymlink_reads (loc : Loc) (src : Text) (dest : HostPath) :
    Keeps (OfFs (c.fs.Later s₀)) (c.copySymlink loc src dest) := by
  refine (onFst_reads (Fs.readSymlinkTarget_keeps loc)).bind fun _ => ?_
  refine (manifest_reads _ _ _ _).bind fun _ => ?_
  refine (symlink_reads _ dest src).attempt.bind fun r => ?_
  cases r with
  | error e => exact report_reads _
  | ok u => exact report_reads _

theorem copyFile_reads (loc : Loc) (i : Inode) (src : Text) (dest : HostPath) :
    Keeps (OfFs (c.fs.Later s₀)) (c.copyFile loc i src dest) := by
  refine (writeFile_reads loc i _).attempt.bind fun r => ?_
  cases r with
  | error e => exact (call_reads _).attempt.bind fun _ => .throw _
  | ok u =>
    refine (call_reads _).bind fun _ => (setMtime_reads loc dest).bind fun _ => ?_
    exact (report_reads _).bind fun _ => manifest_reads _ _ _ _

theorem makeWay_reads (dest : HostPath) : Keeps (OfFs (c.fs.Later s₀)) (c.makeWay dest) := by
  refine (call_reads _).attempt.bind fun r => ?_
  cases r with
  | error e => exact .pure _
  | ok b => exact (Keeps.lift _).bind fun _ => call_reads _

/-- Copying what is no directory reads the filesystem. -/
theorem copyLeaf_reads (loc : Loc) (src : Text) (dest : HostPath) :
    Keeps (OfFs (c.fs.Later s₀)) (c.copyLeaf loc src dest) := by
  refine Keeps.get.bind fun w => (record_reads _).bind fun _ => ?_
  refine (onFst_reads (Fs.inode_keeps loc)).bind fun i => (makeWay_reads dest).bind fun _ => ?_
  refine .ite (fun _ => copySymlink_reads loc src dest) fun _ => ?_
  exact .ite (fun _ => report_reads _) fun _ => copyFile_reads loc i src dest

theorem enter_reads (dir : Loc) (src : Text) (dest : HostPath) :
    Keeps (OfFs (c.fs.Later s₀)) (c.enter dir src dest) := by
  have hrest : Keeps (OfFs (c.fs.Later s₀)) (do
      onSnd (hostCall (fun e => .context s!"creating {dest.display}" (hostError e))
        (c.host.createDirAll dest))
      report fun r => { r with dirs := r.dirs + 1 }
      c.manifest dir src dest none : CopyM β η Unit) :=
    (call_reads _).bind fun _ => (report_reads _).bind fun _ => manifest_reads _ _ _ _
  refine (call_reads _).attempt.bind fun r => ?_
  cases r with
  | error e => exact hrest
  | ok b => exact (Keeps.lift _).bind fun _ => hrest

theorem skips_reads (e : Entry) (dir : Loc) : Keeps (OfFs (c.fs.Later s₀)) (c.skips e dir) := by
  refine .ite (fun _ => .pure _) fun _ => .ite (fun _ => .pure _) fun _ => ?_
  exact .ite (fun _ => onFst_reads (Fs.isSnapshot_keeps _)) fun _ => .pure _

end Copier

namespace Image

/-- A copier of a directory of one file, `f`: the device is gone, and its blocks are cached. -/
def goneCopier : Copier Unit (Bytes × Nat) HostPath :=
  { oneFileCopier with fs := { fs [] with devs := [] } }

theorem stores_gone : goneCopier.fs.Stores
    (Cached (volumeLeaves (oneFile [0x66])) (volume (oneFile [0x66]))) (volume (oneFile [0x66])) := by
  refine stores_leaves (S := [FS_TREE_OBJECTID]) ?_ (fun t => linked_volume) ?_ ?_ ?_ ?_
  all_goals decide +kernel

end Image

end BtrfsPeek
