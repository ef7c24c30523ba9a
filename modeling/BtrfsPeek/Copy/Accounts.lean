import BtrfsPeek.Copy.Standing

/-!
# What a copy accounts for

From any image and onto any host. Of each directory that was listed, each entry was excluded or
tried; of what was tried, each that failed is counted, and for each that did not it is known
what became of it (`Copier.copy_accounts`). So a copy that fails with nothing and counts no
failure has left out only what it was asked to leave out (`Copier.copy_loses_nothing`).
-/

namespace BtrfsPeek

open Effect

variable {β η φ : Type}

/-- An entry that was tried has failed. -/
def CopyEvent.failed : CopyEvent η → Bool
  | .tried _ _ _ _ (.error _) => true
  | _ => false

namespace Copier

section dealt

variable (c : Copier β η φ) (s₀ : FsState β)

/-- How things are when `loc` was recorded to be copied to `dest`, and what stood there has
made way. -/
def Cleared (loc : Loc) (dest : HostPath) (log : List (CopyEvent η)) (w : Work η) : Prop :=
  ∃ s t before, c.fs.Later s₀ s.1 ∧ s.2.log = before ++ [.leaf loc dest s.2.host] ∧ s.2.log <+: log ∧
    c.makeWay dest s = .ok () t ∧ t.2 = w

/-- From there, `x` did not fail. -/
def Ran (loc : Loc) (dest : HostPath) (x : CopyM β η Unit) (log : List (CopyEvent η)) : Prop :=
  ∃ t t', c.fs.Later s₀ t.1 ∧ c.Cleared s₀ loc dest log t.2 ∧ x t = .ok () t'

/-- A directory was listed, for `dest`. -/
def DirDealt (loc : Loc) (dest : HostPath) (w : Work η) : Prop :=
  ∃ i rel, c.fs.Sometime s₀ (c.fs.inode loc) (· = i) ∧ i.isDir = true ∧ .listed loc rel dest ∈ w.log

/-- The host has made a link at `dest` or a file was copied to it, or there is a warning. -/
def LeafDealt (loc : Loc) (src : Text) (dest : HostPath) (w : Work η) : Prop :=
  (∃ i, c.fs.Sometime s₀ (c.fs.inode loc) (· = i) ∧ i.isDir = false) ∧
    c.Came s₀ loc src w.report.warnings
      (fun target => c.Ran s₀ loc dest (do
        c.manifest loc src dest (some target)
        c.symlink target dest src) w.log)
      fun i => c.Ran s₀ loc dest (c.copyFile loc i src dest) w.log

/-- What became of an entry that was tried and did not fail. -/
def Dealt (dir : Loc) (e : Entry) (src : Text) (dest : HostPath) (w : Work η) : Prop :=
  c.Withheld s₀ dir e ∨ c.DirDealt s₀ e.loc dest w ∨ c.LeafDealt s₀ e.loc src dest w

/-- What became of what was to be copied. What is no directory may have been copied into `dest`. -/
def StartDealt (src : Loc) (srcPath : Text) (dest : HostPath) (w : Work η) : Prop :=
  c.DirDealt s₀ src dest w ∨ c.LeafDealt s₀ src srcPath dest w ∨
    c.LeafDealt s₀ src srcPath
      (dest.join c.platform (hostName c.platform (srcPath.rtakeWhile (· ≠ '/')))) w

variable {c s₀} {loc dir : Loc} {e : Entry} {src : Text} {dest : HostPath} {w w' : Work η}

theorem Cleared.mono {log log' : List (CopyEvent η)} (h : c.Cleared s₀ loc dest log w) (hlog : log <+: log') :
    c.Cleared s₀ loc dest log' w := by
  obtain ⟨s, t, before, hs, hlast, hpre, hrun, hw⟩ := h
  exact ⟨s, t, before, hs, hlast, hpre.trans hlog, hrun, hw⟩

theorem Ran.mono {x : CopyM β η Unit} {log log' : List (CopyEvent η)} (h : c.Ran s₀ loc dest x log)
    (hlog : log <+: log') : c.Ran s₀ loc dest x log' := by
  obtain ⟨t, t', ht, hc, hrun⟩ := h
  exact ⟨t, t', ht, hc.mono hlog, hrun⟩

theorem DirDealt.mono (h : c.DirDealt s₀ loc dest w) (hlog : w.log <+: w'.log) : c.DirDealt s₀ loc dest w' := by
  obtain ⟨i, rel, hi, hdir, hlisted⟩ := h
  exact ⟨i, rel, hi, hdir, hlog.subset hlisted⟩

theorem LeafDealt.mono (h : c.LeafDealt s₀ loc src dest w) (hlog : w.log <+: w'.log)
    (hw : w.report.warnings <+: w'.report.warnings) : c.LeafDealt s₀ loc src dest w' :=
  ⟨h.1, h.2.mono hw (fun _ h => h.mono hlog) fun _ h => h.mono hlog⟩

theorem Dealt.mono (h : c.Dealt s₀ dir e src dest w) (hlog : w.log <+: w'.log)
    (hw : w.report.warnings <+: w'.report.warnings) : c.Dealt s₀ dir e src dest w' :=
  h.imp_right fun h => h.imp (fun h => h.mono hlog) fun h => h.mono hlog hw

/-- What is there already makes way, or stops the copy. -/
theorem makeWay_clears {before : List (CopyEvent η)} : Ensures
    (Going c.fs s₀ fun w => w.log = before ++ [.leaf loc dest w.host]) (c.makeWay dest)
    (fun _ => Going c.fs s₀ fun w => c.Cleared s₀ loc dest w.log w) fun _ _ => True := by
  refine Ensures.of_outcomes (fun s _ t hs hrun => ⟨(makeWay_reads dest).ok hs.1 hrun, ?_⟩)
    fun _ _ _ _ _ => trivial
  have hlog : s.2.log <+: t.2.log :=
    (@makeWay_keeps _ _ _ c _ _ (respects_log (R := (s.2.log <+: ·))) dest trivial).ok (List.prefix_refl _) hrun
  exact ⟨s, t, before, hs.1, hs.2, hlog, hrun, rfl⟩

theorem copyFile_ran (i : Inode) : Ensures (Going c.fs s₀ fun w => c.Cleared s₀ loc dest w.log w)
    (c.copyFile loc i src dest) (fun _ t => c.Ran s₀ loc dest (c.copyFile loc i src dest) t.2.log)
    fun _ _ => True := by
  refine Ensures.of_outcomes (fun t _ t' ht hrun => ⟨t, t', ht.1, ht.2.mono ?_, hrun⟩) fun _ _ _ _ _ => trivial
  exact (@copyFile_keeps _ _ _ c _ _ (respects_log (R := (t.2.log <+: ·))) loc i src dest trivial trivial).ok
    (List.prefix_refl _) hrun

/-- The host makes the link, or there is a warning. -/
theorem copySymlink_ran : Ensures (Going c.fs s₀ fun w => c.Cleared s₀ loc dest w.log w)
    (c.copySymlink loc src dest)
    (fun _ t => ∃ raw, c.fs.Sometime s₀ (c.fs.readSymlinkTarget loc) (· = raw) ∧
      (c.Ran s₀ loc dest (do
        c.manifest loc src dest (some (Utf8.fromUtf8Lossy raw))
        c.symlink (Utf8.fromUtf8Lossy raw) dest src) t.2.log ∨
        ∃ e, c.notCreated src (Utf8.fromUtf8Lossy raw) e ∈ t.2.report.warnings))
    fun _ _ => True := by
  refine Ensures.bind ((onFst_going (Fs.sometime_of_keeps (Fs.readSymlinkTarget_keeps loc))).mono
    (fun _ h => h) (fun _ _ h => h) fun _ _ _ => trivial) fun raw => Ensures.fact fun hraw => ?_
  refine Ensures.of_outcomes (fun t _ t' ht hrun => ⟨raw, hraw, ?_⟩) fun _ _ _ _ _ => trivial
  obtain ⟨⟨⟩, t₁, hline, hrun⟩ := bind_ok_iff.mp hrun
  obtain ⟨r, t₂, hlink, hrun⟩ := bind_ok_iff.mp hrun
  have hlog : t.2.log <+: t₂.2.log := by
    have hQ := respects_log (c := c) (R := (t.2.log <+: ·))
    exact ((manifest_keeps hQ loc src dest _).bind fun _ =>
      (symlink_keeps hQ _ src trivial).attempt).ok (List.prefix_refl _) (bind_ok_iff.mpr ⟨⟨⟩, t₁, hline, hlink⟩)
  cases hx : c.symlink (Utf8.fromUtf8Lossy raw) dest src t₁ with
  | ok u t₃ =>
    rw [attempt_run, hx] at hlink
    obtain ⟨rfl, rfl⟩ := EStateM.Result.ok.inj hlink
    obtain ⟨-, rfl⟩ := EStateM.Result.ok.inj hrun
    exact .inl ⟨t, t₃, ht.1, ht.2.mono hlog, bind_ok_iff.mpr ⟨⟨⟩, t₁, hline, hx⟩⟩
  | error e t₃ =>
    rw [attempt_run, hx] at hlink
    obtain ⟨rfl, rfl⟩ := EStateM.Result.ok.inj hlink
    obtain ⟨-, rfl⟩ := EStateM.Result.ok.inj hrun
    exact .inr ⟨e, List.mem_append_right _ List.mem_cons_self⟩

/-- What becomes of what is copied, if that does not fail. -/
theorem copyLeaf_came : Ensures (fun t => c.fs.Later s₀ t.1) (c.copyLeaf loc src dest)
    (fun _ t => c.Came s₀ loc src t.2.report.warnings
      (fun target => c.Ran s₀ loc dest (do
        c.manifest loc src dest (some target)
        c.symlink target dest src) t.2.log)
      fun i => c.Ran s₀ loc dest (c.copyFile loc i src dest) t.2.log) fun _ _ => True := by
  refine Ensures.of_start fun s hs => ?_
  refine Ensures.bind (Q := fun v t => v = s ∧ t = s) (Ensures.get fun t ht => ⟨ht, ht⟩) fun v => ?_
  refine Ensures.bind (Q := fun _ => Going c.fs s₀ fun w => w.log = s.2.log ++ [.leaf loc dest w.host]) ?_
    fun _ => ?_
  · rintro t ⟨rfl, rfl⟩
    exact ⟨hs, rfl⟩
  refine Ensures.bind ((onFst_going (Fs.sometime_of_keeps (Fs.inode_keeps loc))).mono (fun _ h => h)
    (fun _ _ h => h) fun _ _ _ => trivial) fun i => Ensures.fact fun hi => ?_
  refine makeWay_clears.bind fun _ => ?_
  split_ifs with hlink hfile
  · refine copySymlink_ran.mono (fun _ h => h) (fun _ t h => ?_) fun _ _ h => h
    obtain ⟨raw, hraw, hmade | ⟨e, hwarned⟩⟩ := h
    · exact .linked hi hlink hraw hmade
    · exact .unlinked hi hlink hraw hwarned
  · refine fun t ht => .skipped hi (Bool.eq_false_iff.mpr hlink) hfile ?_
    exact List.mem_append_right _ List.mem_cons_self
  · exact (copyFile_ran i).mono (fun _ h => h) (fun _ t h => .filed hi (by simpa using hfile) h) fun _ _ h => h

end dealt

end Copier

/-! ## The accounts -/

/-- The entry of a directory that was listed for `dest` had its turn: it was excluded, or
tried in there. -/
def Copier.Settled (c : Copier β η φ) (dir : Loc) (rel : Text) (dest : HostPath) (e : Entry)
    (log : List (CopyEvent η)) : Prop :=
  .visited dir rel e ∈ log ∧ (c.excludes rel e.nameLossy = true ∨
    ∃ src name r, SafeName c.platform name ∧ .tried dir e src (dest ++ [name]) r ∈ log)

theorem Copier.Settled.mono {c : Copier β η φ} {dir : Loc} {rel : Text} {dest : HostPath} {e : Entry}
    {log log' : List (CopyEvent η)} (h : c.Settled dir rel dest e log) (hlog : log <+: log') :
    c.Settled dir rel dest e log' := by
  refine ⟨hlog.subset h.1, h.2.imp_right fun htried => ?_⟩
  obtain ⟨src, name, r, hsafe, ht⟩ := htried
  exact ⟨src, name, r, hsafe, hlog.subset ht⟩

/-- What was done is accounted for, but for the directories that are `due`, whose entries are
being copied. -/
structure Accounts (c : Copier β η φ) (s₀ : FsState β) (due : List (Loc × Text × HostPath)) (w : Work η) :
    Prop where
  failures : w.report.failures = w.log.countP CopyEvent.failed
  listed : ∀ dir rel dest, .listed dir rel dest ∈ w.log → (dir, rel, dest) ∈ due ∨
    ∃ es, c.fs.Sometime s₀ (c.fs.readdir dir) (· = es) ∧ ∀ e ∈ es, c.Settled dir rel dest e w.log
  tried : ∀ dir e src dest, .tried dir e src dest (.ok ()) ∈ w.log → c.Dealt s₀ dir e src dest w

namespace Accounts

variable {c : Copier β η φ} {s₀ : FsState β} {dir : Loc} {rel : Text} {dest : HostPath}
  {due due' : List (Loc × Text × HostPath)} {w : Work η}

theorem nil (c : Copier β η φ) (s₀ : FsState β) (host : η) : Accounts c s₀ [] (Work.start host) :=
  ⟨rfl, fun _ _ _ h => absurd h List.not_mem_nil, fun _ _ _ _ h => absurd h List.not_mem_nil⟩

/-- Something is recorded. -/
theorem record (h : Accounts c s₀ due w) {ev : CopyEvent η} {r : Report}
    (hfail : r.failures = w.report.failures + if ev.failed then 1 else 0)
    (hwarn : w.report.warnings <+: r.warnings)
    (hlisted : ∀ dir rel dest, ev = .listed dir rel dest → (dir, rel, dest) ∈ due') (hdue : ∀ x ∈ due, x ∈ due')
    (htried : ∀ dir e src dest, ev = .tried dir e src dest (.ok ()) → c.Dealt s₀ dir e src dest w) :
    Accounts c s₀ due' { w with report := r, log := w.log ++ [ev] } := by
  have hlog : w.log <+: w.log ++ [ev] := List.prefix_append _ _
  have hlast {x : CopyEvent η} (hx : x ∈ w.log ++ [ev]) : x ∈ w.log ∨ ev = x :=
    (List.mem_append.mp hx).imp_right fun hx => (List.mem_singleton.mp hx).symm
  refine ⟨?_, fun dir rel dest hd => ?_, fun dir e src dest ht => ?_⟩
  · show r.failures = (w.log ++ [ev]).countP CopyEvent.failed
    rw [hfail, h.failures, List.countP_append, List.countP_singleton]
  · refine (hlast hd).elim (fun hd => ?_) fun hd => .inl (hlisted dir rel dest hd)
    exact (h.listed dir rel dest hd).imp (hdue _) fun ⟨es, hes, hall⟩ => ⟨es, hes, fun e he => (hall e he).mono hlog⟩
  · exact ((hlast ht).elim (h.tried dir e src dest) (htried dir e src dest)).mono hlog hwarn

/-- All entries are settled of a directory that is due. -/
theorem settle (h : Accounts c s₀ ((dir, rel, dest) :: due) w) {es : List Entry}
    (hes : c.fs.Sometime s₀ (c.fs.readdir dir) (· = es)) (hall : ∀ e ∈ es, c.Settled dir rel dest e w.log) :
    Accounts c s₀ due w := by
  refine ⟨h.failures, fun dir' rel' dest' hd => ?_, h.tried⟩
  rcases h.listed dir' rel' dest' hd with hdue | hx
  · rcases List.mem_cons.mp hdue with heq | hdue
    · cases heq
      exact .inr ⟨es, hes, hall⟩
    · exact .inl hdue
  · exact .inr hx

/-- Where no failure was counted, each entry was excluded, or tried and did not fail. -/
theorem entries (h : Accounts c s₀ [] w) (hnone : w.report.failures = 0) (hlisted : .listed dir rel dest ∈ w.log) :
    ∃ es, c.fs.Sometime s₀ (c.fs.readdir dir) (· = es) ∧ ∀ e ∈ es, c.excludes rel e.nameLossy = true ∨
      ∃ src name, SafeName c.platform name ∧ .tried dir e src (dest ++ [name]) (.ok ()) ∈ w.log := by
  obtain ⟨es, hes, hall⟩ := (h.listed dir rel dest hlisted).resolve_left List.not_mem_nil
  refine ⟨es, hes, fun e he => (hall e he).2.imp_right fun htried => ?_⟩
  obtain ⟨src, name, r, hsafe, ht⟩ := htried
  cases r with
  | ok u => exact ⟨src, name, hsafe, ht⟩
  | error err =>
    -- It would have been counted.
    exact absurd rfl (List.countP_eq_zero.mp (h.failures.symm.trans hnone) _ ht)

end Accounts

namespace Copier

variable (c : Copier β η φ) (s₀ : FsState β)

/-- Accounts are kept, and `R` of the rest. -/
abbrev Accounting (due : List (Loc × Text × HostPath)) (R : Work η → Prop) : FsState β × Work η → Prop :=
  Going c.fs s₀ fun w => Accounts c s₀ due w ∧ R w

/-- What holds whatever else is recorded and reported. -/
abbrev Recorded (R : Work η → Prop) : Prop :=
  ∀ w w' : Work η, w.log <+: w'.log → w.report.warnings <+: w'.report.warnings → R w → R w'

variable {c s₀} {dir loc : Loc} {e : Entry} {due : List (Loc × Text × HostPath)} {R R' : Work η → Prop}
  {E : Error → FsState β × Work η → Prop}

theorem Recorded.and (hR : Recorded R) (hR' : Recorded R') : Recorded fun w => R w ∧ R' w :=
  fun w w' hlog hw h => ⟨hR w w' hlog hw h.1, hR' w w' hlog hw h.2⟩

theorem recorded_mem (ev : CopyEvent η) : Recorded fun w => ev ∈ w.log := fun _ _ hlog _ h => hlog.subset h

/-- The host is no part of it. -/
theorem accounts_frame (hR : Recorded R) (w : Work η) (host : η) (h : Accounts c s₀ due w ∧ R w) :
    Accounts c s₀ due { w with host := host } ∧ R { w with host := host } :=
  ⟨⟨h.1.failures, h.1.listed, h.1.tried⟩, hR w _ (List.prefix_refl _) (List.prefix_refl _) h.2⟩

theorem respects_accounts (hR : Recorded R) :
    c.Respects (fun _ => True) fun w => Accounts c s₀ due w ∧ R w where
  report w r hr h := by
    refine ⟨⟨hr.failures.trans h.1.failures, h.1.listed, fun dir e src dest ht => ?_⟩, ?_⟩
    · exact (h.1.tried dir e src dest ht).mono (List.prefix_refl _) hr.warnings
    · exact hR w _ (List.prefix_refl _) hr.warnings h.2
  call wrap _ := hostCall_frame (accounts_frame hR) wrap _

/-- What is neither a listing nor an outcome. -/
theorem note_accounts (hR : Recorded R) {ev : CopyEvent η} (hl : ∀ dir rel dest, ev ≠ .listed dir rel dest)
    (ht : ∀ dir e src dest r, ev ≠ .tried dir e src dest r) :
    Ensures (c.Accounting s₀ due R) (record ev)
      (fun _ => c.Accounting s₀ due fun w => R w ∧ ev ∈ w.log) E := by
  have hfailed : ev.failed = false := by
    cases ev with
    | tried dir e src dest r => exact absurd rfl (ht dir e src dest r)
    | _ => rfl
  refine onSnd_going fun w hw => ⟨?_, hR w _ (List.prefix_append _ _) (List.prefix_refl _) hw.2, ?_⟩
  · exact hw.1.record (by simp [hfailed]) (List.prefix_refl _) (fun dir rel dest he => absurd he (hl dir rel dest))
      (fun _ h => h) fun dir e src dest he => absurd he (ht dir e src dest _)
  · exact List.mem_append_right _ List.mem_cons_self

theorem pass_accounts (hR : Recorded R) {ev : CopyEvent η} (hl : ∀ dir rel dest, ev ≠ .listed dir rel dest)
    (ht : ∀ dir e src dest r, ev ≠ .tried dir e src dest r) :
    Ensures (c.Accounting s₀ due R) (record ev) (fun _ => c.Accounting s₀ due R) E :=
  (note_accounts hR hl ht).mono (fun _ h => h) (fun _ _ h => ⟨h.1, h.2.1, h.2.2.1⟩) fun _ _ h => h

theorem enter_accounts (hR : Recorded R) (src : Text) (dest : HostPath) :
    Keeps (c.Accounting s₀ due R) (c.enter dir src dest) :=
  keeps_going (enter_reads dir src dest) (enter_keeps (respects_accounts hR) dir src trivial)

theorem setMtime_accounts (hR : Recorded R) (dest : HostPath) :
    Keeps (c.Accounting s₀ due R) (c.setMtime dir dest) :=
  keeps_going (setMtime_reads dir dest) (setMtime_keeps (respects_accounts hR) dir trivial)

/-- It is known what became of what is no directory. -/
theorem copyLeaf_accounts (hR : Recorded R) (src : Text) (dest : HostPath) :
    Ensures (c.Accounting s₀ due fun w => R w ∧ ∃ i, c.fs.Sometime s₀ (c.fs.inode loc) (· = i) ∧ i.isDir = false)
      (c.copyLeaf loc src dest) (fun _ => c.Accounting s₀ due fun w => R w ∧ c.LeafDealt s₀ loc src dest w)
      fun _ => c.Accounting s₀ due R := by
  have hread : Recorded fun w : Work η => R w ∧ ∃ i, c.fs.Sometime s₀ (c.fs.inode loc) (· = i) ∧ i.isDir = false :=
    hR.and fun _ _ _ _ h => h
  have hkeeps : Keeps (c.Accounting s₀ due fun w =>
      R w ∧ ∃ i, c.fs.Sometime s₀ (c.fs.inode loc) (· = i) ∧ i.isDir = false) (c.copyLeaf loc src dest) := by
    refine keeps_going (copyLeaf_reads loc src dest)
      (copyLeaf_keeps (respects_accounts hread) loc src (fun w hw => ⟨?_, ?_⟩) trivial trivial)
    · exact hw.1.record rfl (List.prefix_refl _) (by simp) (fun _ h => h) (by simp)
    · exact hread w _ (List.prefix_append _ _) (List.prefix_refl _) hw.2
  exact (hkeeps.and copyLeaf_came).mono (fun _ h => ⟨h, h.1⟩)
    (fun _ t h => ⟨h.1.1, h.1.2.1, h.1.2.2.1, h.1.2.2.2, h.2⟩) fun _ t h => ⟨h.1.1, h.1.2.1, h.1.2.2.1⟩

section entries

variable {recurse : Recurse β η} (hrec : ∀ {due : List (Loc × Text × HostPath)} {R : Work η → Prop}, Recorded R →
  ∀ loc src rel dest, Ensures (c.Accounting s₀ due R) (recurse loc src rel dest)
    (fun _ => c.Accounting s₀ due fun w => R w ∧ .listed loc rel dest ∈ w.log) fun _ => c.Accounting s₀ due R)

include hrec

theorem copyEntry_accounts (hR : Recorded R) (src rel : Text) (dest : HostPath) :
    Ensures (c.Accounting s₀ due R) (c.copyEntry recurse e dir src rel dest)
      (fun _ => c.Accounting s₀ due fun w => R w ∧ c.Dealt s₀ dir e src dest w)
      fun _ => c.Accounting s₀ due R := by
  refine (skips_going e dir).bind fun skip => Ensures.fact fun hskip => ?_
  by_cases hs : skip = true
  · rw [if_pos hs]
    have hcount : Keeps (c.Accounting s₀ due R)
        (report fun r => { r with excluded := r.excluded + 1 }) :=
      keeps_going (report_reads _) (report_keeps (respects_accounts hR) fun _ => .counts rfl rfl)
    exact hcount.mono (fun _ h => h) (fun _ t h => ⟨h.1, h.2.1, h.2.2, .inl (hskip hs)⟩) fun _ _ h => h
  · rw [if_neg hs]
    refine (onFst_going (Fs.sometime_of_keeps (Fs.inode_keeps e.loc))).bind fun i => Ensures.fact fun hi => ?_
    by_cases hdir : i.isDir = true
    · rw [if_pos hdir]
      refine (hrec hR e.loc src rel dest).mono (fun _ h => h) (fun _ t h => ⟨h.1, h.2.1, h.2.2.1, ?_⟩) fun _ _ h => h
      exact .inr (.inl ⟨i, rel, hi, hdir, h.2.2.2⟩)
    · rw [if_neg hdir]
      refine (copyLeaf_accounts hR src dest).mono
        (fun t h => ⟨h.1, h.2.1, h.2.2, i, hi, Bool.eq_false_iff.mpr hdir⟩)
        (fun _ t h => ⟨h.1, h.2.1, h.2.2.1, .inr (.inr h.2.2.2)⟩) fun _ _ h => h

/-- What comes of an entry is recorded, and counted if it is an error. -/
theorem tryEntry_accounts (hR : Recorded R) (src rel : Text) (dest : HostPath) :
    Ensures (c.Accounting s₀ due R) (c.tryEntry recurse e dir src rel dest)
      (fun _ => c.Accounting s₀ due fun w => R w ∧ ∃ r, .tried dir e src dest r ∈ w.log) E := by
  refine (copyEntry_accounts hrec hR src rel dest).attempt.bind fun r => ?_
  cases r with
  | ok u =>
    refine fun t ht => ⟨ht.1, ?_, hR t.2 _ (List.prefix_append _ _) (List.prefix_refl _) ht.2.2.1, .ok (), ?_⟩
    · refine ht.2.1.record rfl (List.prefix_refl _) nofun (fun _ h => h) fun _ _ _ _ heq => ?_
      cases heq
      exact ht.2.2.2
    · exact List.mem_append_right _ List.mem_cons_self
  | error err =>
    refine fun t ht => ⟨ht.1, ?_, hR t.2 _ (List.prefix_append _ _) (List.prefix_append _ _) ht.2.2, .error err, ?_⟩
    · exact ht.2.1.record rfl (List.prefix_append _ _) nofun (fun _ h => h) nofun
    · exact List.mem_append_right _ List.mem_cons_self

theorem copyOne_accounts (hR : Recorded R) (src rel : Text) (dest : HostPath) (taken : List Text) :
    Ensures (c.Accounting s₀ due R) (c.copyOne recurse dir src rel dest (e, taken))
      (fun _ => c.Accounting s₀ due fun w => R w ∧ c.Settled dir rel dest e w.log) E := by
  have hR' : Recorded fun w => R w ∧ .visited dir rel e ∈ w.log := hR.and (recorded_mem _)
  have hreport {f : Report → Report} (hf : ∀ r : Report, r.Onward (f r)) :
      Ensures (c.Accounting s₀ due fun w => R w ∧ .visited dir rel e ∈ w.log) (report f)
        (fun _ => c.Accounting s₀ due fun w => R w ∧ .visited dir rel e ∈ w.log) E :=
    onSnd_going fun w hw => (respects_accounts hR').report w (f w.report) (hf w.report) hw
  refine (note_accounts hR (by simp) (by simp)).bind fun _ => ?_
  cases hgive : c.give rel taken e with
  | none =>
    have hex : c.excludes rel e.nameLossy = true := by
      unfold give at hgive
      split_ifs at hgive with hex
      exact hex
    have hcount := hreport (f := fun r => { r with excluded := r.excluded + 1 }) fun _ => .counts rfl rfl
    exact hcount.mono (fun _ h => h) (fun _ t ht => ⟨ht.1, ht.2.1, ht.2.2.1, ht.2.2.2, .inl hex⟩) fun _ _ h => h
  | some host =>
    have hsafe : SafeName c.platform host := by
      obtain ⟨-, rfl⟩ := give_eq_some.mp hgive
      exact safeName_chosenName _ _
    have hparent : ¬ (dest ++ [host]).parent ≠ some dest := by simp [HostPath.parent]
    dsimp only
    rw [hsafe.join, if_neg hparent]
    have htry : Ensures (c.Accounting s₀ due fun w => R w ∧ .visited dir rel e ∈ w.log)
        (c.tryEntry recurse e dir (src ++ '/' :: e.nameLossy) (childRel rel e.nameLossy) (dest ++ [host]))
        (fun _ => c.Accounting s₀ due fun w => R w ∧ c.Settled dir rel dest e w.log) E := by
      refine (tryEntry_accounts hrec hR' _ _ _).mono (fun _ h => h) (fun _ t ht => ?_) fun _ _ h => h
      obtain ⟨hs, hacc, ⟨hr, hv⟩, r, ht⟩ := ht
      exact ⟨hs, hacc, hr, hv, .inr ⟨_, host, r, hsafe, ht⟩⟩
    split_ifs
    · exact Ensures.bind (hreport (by exact fun r => ⟨rfl, List.prefix_append r.warnings _⟩)) fun _ => htry
    · exact htry

theorem copyEntries_accounts (src rel : Text) (dest : HostPath) :
    ∀ {R : Work η → Prop}, Recorded R → ∀ es taken,
    Ensures (c.Accounting s₀ due R) (c.copyEntries recurse dir src rel dest es taken)
      (fun _ => c.Accounting s₀ due fun w => R w ∧ ∀ e ∈ es, c.Settled dir rel dest e w.log) E := by
  intro R hR es
  induction es generalizing R with
  | nil => exact fun taken => Ensures.pure fun t ht => ⟨ht.1, ht.2.1, ht.2.2, fun _ h => absurd h List.not_mem_nil⟩
  | cons e es ih =>
    intro taken
    have hsettled : Recorded fun w : Work η => c.Settled dir rel dest e w.log := fun _ _ hlog _ h => h.mono hlog
    have hrest := ih (hR.and hsettled) (Naming.takenAfter (c.give rel) c.fold taken e)
    rw [copyEntries_eq] at hrest ⊢
    rw [Naming.turns_cons, forEach]
    refine (copyOne_accounts hrec hR src rel dest taken).bind fun _ => hrest.mono (fun _ h => h)
      (fun _ t ht => ⟨ht.1, ht.2.1, ht.2.2.1.1, ?_⟩) fun _ _ h => h
    rintro e' he'
    rcases List.mem_cons.mp he' with rfl | he'
    · exact ht.2.2.1.2
    · exact ht.2.2.2 e' he'

theorem copyDirInner_accounts (hR : Recorded R) (src rel : Text) (dest : HostPath) :
    Ensures (c.Accounting s₀ due R) (c.copyDirInner recurse dir src rel dest)
      (fun _ => c.Accounting s₀ due fun w => R w ∧ .listed dir rel dest ∈ w.log)
      fun _ => c.Accounting s₀ due R := by
  refine Ensures.bind (enter_accounts hR src dest).attempt fun r => ?_
  cases r with
  | error err =>
    exact (pass_accounts hR (by simp) (by simp)).bind fun _ => Ensures.throw fun _ h => h
  | ok u =>
    refine (pass_accounts hR (by simp) (by simp)).bind fun _ => ?_
    refine (onFst_going (Fs.sometime_of_keeps (Fs.readdir_keeps dir))).bind fun es => Ensures.fact fun hes => ?_
    have hR' : Recorded fun w => R w ∧ .listed dir rel dest ∈ w.log := hR.and (recorded_mem _)
    -- Its entries are due until all have had their turn.
    refine Ensures.bind (Q := fun _ => c.Accounting s₀ ((dir, rel, dest) :: due)
      fun w => R w ∧ .listed dir rel dest ∈ w.log) (onSnd_going fun w hw => ?_) fun _ => ?_
    · refine ⟨?_, hR w _ (List.prefix_append _ _) (List.prefix_refl _) hw.2,
        List.mem_append_right _ List.mem_cons_self⟩
      refine hw.1.record rfl (List.prefix_refl _) (fun _ _ _ heq => ?_) (fun _ h => List.mem_cons_of_mem _ h) nofun
      cases heq
      exact List.mem_cons_self
    · refine (copyEntries_accounts hrec src rel dest hR' es []).bind fun _ => ?_
      exact (setMtime_accounts hR' dest).mono (fun t ht => ⟨ht.1, ht.2.1.settle hes ht.2.2.2, ht.2.2.1⟩)
        (fun _ _ h => h) fun _ t ht => ⟨ht.1, ht.2.1, ht.2.2.1⟩

end entries

theorem copyDir_accounts : ∀ (left : Nat) {due : List (Loc × Text × HostPath)} {R : Work η → Prop}, Recorded R →
    ∀ dir src rel dest, Ensures (c.Accounting s₀ due R) (c.copyDir left dir src rel dest)
      (fun _ => c.Accounting s₀ due fun w => R w ∧ .listed dir rel dest ∈ w.log) fun _ => c.Accounting s₀ due R
  | 0, _, _, hR, _, _, _, _ =>
    (pass_accounts hR (by simp) (by simp)).bind fun _ => Ensures.throw fun _ h => h
  | left + 1, due, R, hR, dir, src, rel, dest => by
    have hset {R : Work η → Prop} (hR : Recorded R) {E : Error → FsState β × Work η → Prop}
        (f : List Loc → List Loc) : Ensures (c.Accounting s₀ due R)
          (onSnd (modify fun w => { w with ancestors := f w.ancestors }))
          (fun _ => c.Accounting s₀ due R) E :=
      onSnd_going fun w hw => ⟨⟨hw.1.failures, hw.1.listed, hw.1.tried⟩,
        hR w _ (List.prefix_refl _) (List.prefix_refl _) hw.2⟩
    have hinner : Ensures (c.Accounting s₀ due R) (c.copyDirInner (c.copyDir left) dir src rel dest)
        (fun _ => c.Accounting s₀ due fun w => R w ∧ .listed dir rel dest ∈ w.log)
        fun _ => c.Accounting s₀ due R :=
      copyDirInner_accounts (copyDir_accounts left) hR src rel dest
    refine (pass_accounts hR (by simp) (by simp)).bind fun _ => ?_
    refine Ensures.bind Keeps.get fun w => Ensures.bind (Keeps.lift _) fun _ => ?_
    refine Ensures.bind (hset hR fun l => dir :: l) fun _ => hinner.attempt.bind fun r => ?_
    cases r with
    | error e => exact Ensures.bind (hset hR fun l => l.erase dir) fun _ => Ensures.throw fun _ h => h
    | ok u =>
      exact Ensures.bind (hset (hR.and (recorded_mem _)) fun l => l.erase dir) fun _ => Ensures.pure fun _ h => h

theorem copy_accounting (src : Loc) (srcPath : Text) (dest : HostPath) :
    Ensures (c.Accounting s₀ [] fun _ => True) (c.copy src srcPath dest)
      (fun _ => c.Accounting s₀ [] fun w => c.StartDealt s₀ src srcPath dest w)
      fun _ => c.Accounting s₀ [] fun _ => True := by
  have hR : Recorded (η := η) fun _ => True := fun _ _ _ _ _ => trivial
  refine (onFst_going (Fs.sometime_of_keeps (Fs.inode_keeps src))).bind fun i => Ensures.fact fun hi => ?_
  by_cases hdir : i.isDir = true
  · rw [if_pos hdir]
    exact (copyDir_accounts _ hR src _ [] dest).mono (fun _ h => h)
      (fun _ t ht => ⟨ht.1, ht.2.1, .inl ⟨i, [], hi, hdir, ht.2.2.2⟩⟩) fun _ _ h => h
  · rw [if_neg hdir]
    have hleaf {dest' : HostPath} (hstart : ∀ w, c.LeafDealt s₀ src srcPath dest' w →
        c.StartDealt s₀ src srcPath dest w) :
        Ensures (c.Accounting s₀ [] fun _ => True) (c.copyLeaf src srcPath dest')
          (fun _ => c.Accounting s₀ [] fun w => c.StartDealt s₀ src srcPath dest w)
          fun _ => c.Accounting s₀ [] fun _ => True :=
      (copyLeaf_accounts hR srcPath dest').mono
        (fun t ht => ⟨ht.1, ht.2.1, trivial, i, hi, Bool.eq_false_iff.mpr hdir⟩)
        (fun _ t ht => ⟨ht.1, ht.2.1, hstart _ ht.2.2.2⟩) fun _ _ h => h
    have hlook : Keeps (c.Accounting s₀ [] fun _ => True) (onSnd (hostCall hostError (c.host.isDir dest))) := by
      have hcall : Keeps (fun w => Accounts c s₀ [] w ∧ True) (hostCall hostError (c.host.isDir dest)) :=
        hostCall_frame (accounts_frame hR) _ _
      exact keeps_going (call_reads _) hcall.onSnd
    refine Ensures.bind hlook.attempt fun r => ?_
    split
    · exact hleaf fun _ h => .inr (.inr h)
    · exact hleaf fun _ h => .inr (.inl h)

/-! ## Whole runs -/

/-- From any image and onto any host, whatever fails. The failures that are reported are the
entries that were tried and failed. Of each directory that was listed for a path, each entry
had its turn, and was excluded or tried in there. Of an entry that was tried and did not fail,
it is known what became of it: it is of a subvolume that the filters keep out, or was listed or
copied for that path, or there is a warning of it; and so of what was to be copied, if the
copy did not fail. -/
theorem copy_accounts (c : Copier β η φ) (src : Loc) (srcPath : Text) (dest : HostPath) (s : FsState β)
    (host : η) :
    let r := c.copy src srcPath dest (s, Work.start host)
    Accounts c s [] (Result.state r).2 ∧
      (Result.value r = .ok () → c.StartDealt s src srcPath dest (Result.state r).2) := by
  intro r
  have hstart : c.Accounting s [] (fun _ => True) (s, Work.start host) := ⟨.refl, .nil c s host, trivial⟩
  have h := copy_accounting src srcPath dest (s, Work.start host) hstart
  cases hr : r with
  | ok u t =>
    rw [show c.copy src srcPath dest (s, Work.start host) = .ok u t from hr] at h
    exact ⟨h.2.1, fun _ => h.2.2⟩
  | error e t =>
    rw [show c.copy src srcPath dest (s, Work.start host) = .error e t from hr] at h
    exact ⟨h.2.1, nofun⟩

/-- Nothing was lost: what was to be copied is on the host, and so is each entry of each directory
on the way, but for what was excluded. -/
structure Whole (c : Copier β UnixHost HostPath) (s₀ : FsState β) (src : Loc) (srcPath : Text)
    (dest : HostPath) (w : Work UnixHost) : Prop where
  start : c.StartThere s₀ src srcPath dest w
  entries : ∀ dir rel dest, .listed dir rel dest ∈ w.log →
    ∃ es, c.fs.Sometime s₀ (c.fs.readdir dir) (· = es) ∧ ∀ e ∈ es, c.excludes rel e.nameLossy = true ∨
      ∃ src name, SafeName c.platform name ∧ c.There s₀ dir e src (dest ++ [name]) w

/-- A copy onto a Unix host that overwrites nothing, fails with nothing and reports no failure
has lost nothing: what was to be copied is there at its end, and so is each entry of each
directory that was listed but for what was excluded, if nothing stood at the temporary names
when they were used. -/
theorem copy_loses_nothing {c : Copier β UnixHost HostPath} (hc : c.host = unixHost)
    (hp : c.platform.windows = false) (hforce : c.opts.force = false) (src : Loc) (srcPath : Text)
    {dest : HostPath} (hdest : Named dest) (s : FsState β) {host : UnixHost} (hcwd : host.isDir [] = true)
    (hok : Result.value (c.copy src srcPath dest (s, Work.start host)) = .ok ())
    (hnone : (c.copied src srcPath dest s host).report.failures = 0)
    (hfree : TemporariesFree (c.copied src srcPath dest s host).log) :
    c.Whole s src srcPath dest (c.copied src srcPath dest s host) := by
  have hg : Ground (fun _ => True) host := ⟨fun _ _ => trivial, fun _ _ _ _ _ => trivial, hcwd⟩
  obtain ⟨-, hdelivered, hstart⟩ := copied_stands hc hp hforce src srcPath hdest s hfree hg (.inl fun _ => trivial)
  have haccounts : Accounts c s [] (c.copied src srcPath dest s host) := by
    have hkeep : Ensures (c.Accounting s [] fun _ => True) (c.copy src srcPath dest)
        (fun _ t => Accounts c s [] t.2) fun _ t => Accounts c s [] t.2 :=
      (copy_accounting src srcPath dest).mono (fun _ h => h) (fun _ _ h => h.2.1) fun _ _ h => h.2.1
    exact hkeep.state ⟨.refl, .nil c s host, trivial⟩
  refine ⟨hstart hok, fun dir rel dest hlisted => ?_⟩
  obtain ⟨es, hes, hall⟩ := haccounts.entries hnone hlisted
  refine ⟨es, hes, fun e he => (hall e he).imp_right fun htried => ?_⟩
  obtain ⟨src, name, hsafe, ht⟩ := htried
  exact ⟨src, name, hsafe, hdelivered dir e src (dest ++ [name]) ht⟩

end Copier

namespace Image

/-- Both files are copied. -/
theorem two_copied : Result.value (unixCopier.copy ⟨FS_TREE_OBJECTID, ROOT_DIR⟩ ['/'] [['d']]
    (cachedLeaves (volumeLeaves (twoNamed [0x61] [0x62] 0o100644 1)) (), Work.start (shelf fun _ => none))) =
      .ok () := by
  have hrun : Result.passes (fun _ _ => true) (unixCopier.copy ⟨FS_TREE_OBJECTID, ROOT_DIR⟩ ['/'] [['d']]
    (cachedLeaves (volumeLeaves (twoNamed [0x61] [0x62] 0o100644 1)) (), Work.start (shelf fun _ => none))) =
      true := by decide +kernel
  obtain ⟨u, t, h, -⟩ := Result.exists_of_passes hrun
  rw [h]
  rfl

end Image

open Image in
theorem Copier.copy_loses_nothing_shelf :
    unixCopier.Whole (cachedLeaves (volumeLeaves (twoNamed [0x61] [0x62] 0o100644 1)) ())
      ⟨FS_TREE_OBJECTID, ROOT_DIR⟩ ['/'] [['d']] (twoCopied [0x61] [0x62] 0o100644 1 fun _ => none) := by
  have hfree : (twoCopied [0x61] [0x62] 0o100644 1 fun _ => none).log.all CopyEvent.temporaryFree = true := by
    decide +kernel
  exact Copier.copy_loses_nothing rfl rfl rfl _ _ named_d _ rfl two_copied
    (by decide +kernel) (List.all_eq_true.mp hfree)

end BtrfsPeek
