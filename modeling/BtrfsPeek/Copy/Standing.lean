import BtrfsPeek.Copy.Arrival

/-!
# What stands on the host

A copy that does not overwrite, onto a Unix host, whatever fails on the way: each path leads
where it led, and what is no directory is as it was (`Copier.copy_spares`); only what is
copied to is written, and what is new (`Copier.copy_contained`); and all that was copied is
there (`Copier.copy_delivers`). The one condition is that nothing stands where the temporary
files go, without which a copy writes outside of what it copies to
(`Copier.copy_escapes`).
-/

namespace BtrfsPeek

open Effect UnixHost

/-! ## What was recorded -/

section recorded

variable {β η φ : Type} {c : Copier β η φ} {s₀ : FsState β} {R : List (CopyEvent η) → Prop}

/-- `R` of what was recorded. -/
abbrev OfLog (R : List (CopyEvent η) → Prop) (w : Work η) : Prop := R w.log

namespace Copier

variable (c s₀) in
/-- The entry is of another subvolume, and the filters keep it out of what is copied. -/
def Withheld (dir : Loc) (e : Entry) : Prop :=
  e.subvol = true ∧ ¬ Fs.isPlaceholder e.loc ∧
    (c.opts.oneSubvolume = true ∧ e.loc.tree ≠ dir.tree ∨
      c.opts.noSnapshots = true ∧ c.fs.Sometime s₀ (c.fs.isSnapshot e.loc.tree) (· = true))

/-- What is skipped is withheld. -/
theorem skips_going {P : Work η → Prop} (e : Entry) (dir : Loc) :
    Ensures (Going c.fs s₀ P) (c.skips e dir)
      (fun skip t => Going c.fs s₀ P t ∧ (skip = true → c.Withheld s₀ dir e)) fun _ => Going c.fs s₀ P := by
  unfold skips
  split_ifs with hs hone hno
  · exact Ensures.pure fun t ht => ⟨ht, fun h => by cases h⟩
  · obtain ⟨hsub, hp⟩ := not_or.mp hs
    exact Ensures.pure fun t ht => ⟨ht, fun _ => ⟨Bool.eq_true_of_not_eq_false hsub, hp, .inl hone⟩⟩
  · obtain ⟨hsub, hp⟩ := not_or.mp hs
    refine (onFst_going (Fs.sometime_of_keeps (Fs.isSnapshot_keeps _))).mono (fun _ h => h)
      (fun skip t ht => ⟨ht.1, fun hskip => ⟨Bool.eq_true_of_not_eq_false hsub, hp, .inr ⟨hno, ?_⟩⟩⟩) fun _ _ h => h
    exact hskip ▸ ht.2
  · exact Ensures.pure fun t ht => ⟨ht, fun h => by cases h⟩

theorem respects_log : c.Respects (fun _ => True) (OfLog R) := respects_of_frame c fun _ _ _ h => h

/-- No warning is taken back. -/
theorem respects_warnings (warnings : List String) :
    c.Respects (fun _ => True) fun w => warnings <+: w.report.warnings where
  report _ _ hr h := h.trans hr.warnings
  call wrap _ := hostCall_frame (fun _ _ h => h) wrap _

/-- What keeps all that calls of the host keep, and reports that go on, and the record of what is
no directory. -/
def Discreet {α : Type} (c : Copier β η φ) (x : CopyM β η α) : Prop :=
  ∀ Q : Work η → Prop, c.Respects (fun _ => True) Q →
    (∀ w loc dest, Q w → Q { w with log := w.log ++ [.leaf loc dest w.host] }) → Keeps (OfWork Q) x

theorem copyLeaf_discreet (loc : Loc) (src : Text) (dest : HostPath) : c.Discreet (c.copyLeaf loc src dest) :=
  fun _ hQ hrecord => copyLeaf_keeps hQ loc src (fun w => hrecord w loc dest) trivial trivial

theorem enter_discreet (dir : Loc) (src : Text) (dest : HostPath) : c.Discreet (c.enter dir src dest) :=
  fun _ hQ _ => enter_keeps hQ dir src trivial

theorem setMtime_discreet (dir : Loc) (dest : HostPath) : c.Discreet (c.setMtime dir dest) :=
  fun _ hQ _ => setMtime_keeps hQ dir trivial

end Copier

end recorded

/-! ## Temporary names -/

/-- A name that is one component of a path of a Unix host. -/
structure UnixName (x : Text) : Prop where
  nonempty : x ≠ []
  ne_dot : x ≠ ['.']
  ne_dots : x ≠ ['.', '.']
  slash : '/' ∉ x

/-- A path that ends in a name: it is not empty and does not end in `..`. -/
def Named (path : HostPath) : Prop := ∃ base x, path = base ++ [x] ∧ UnixName x

theorem Named.ne_nil {path : HostPath} (h : Named path) : path ≠ [] := by
  obtain ⟨base, x, rfl, -⟩ := h
  exact List.append_ne_nil_of_right_ne_nil _ (List.cons_ne_nil _ _)

theorem SafeName.unixName {p : Platform} {x : Text} (h : SafeName p x) : UnixName x :=
  ⟨h.nonempty, h.ne_dot, h.ne_dots, h.slash⟩

/-- The temporary name of a file. -/
def temporary (x : Text) : Text := x ++ ".btrfs-peek-partial".toList

theorem temporary_ne (x : Text) : x ≠ temporary x := by
  intro h
  have := congrArg List.length h
  simp [temporary] at this

theorem temporary_injective {x z : Text} (h : temporary x = temporary z) : x = z :=
  List.append_cancel_right h

/-- It is as good a name. -/
theorem unixName_temporary {x : Text} (h : UnixName x) : UnixName (temporary x) := by
  have hlen : (temporary x).length = x.length + 19 := by simp [temporary]
  refine ⟨fun he => ?_, fun he => ?_, fun he => ?_, fun he => ?_⟩
  · rw [he] at hlen
    simp at hlen
  · rw [he] at hlen
    simp at hlen
  · rw [he] at hlen
    simp at hlen
  · rcases List.mem_append.mp he with he | he
    · exact h.slash he
    · simp at he

/-- Where the temporary file of `dest` goes. -/
def tmpOf (dest : HostPath) : HostPath := dest.withFileName ⟨false⟩ (partialName dest)

theorem tmpOf_concat {x : Text} (h : UnixName x) (base : HostPath) :
    tmpOf (base ++ [x]) = base ++ [temporary x] := by
  have hname : (base ++ [x]).fileName = some x := by simp [HostPath.fileName, h.ne_dots]
  unfold tmpOf
  rw [HostPath.withFileName, hname, partialName, hname, if_pos (show (some x).isSome = true from rfl),
    List.dropLast_concat]
  have ht := unixName_temporary h
  refine HostPath.join_single base (fun ch hch => ?_) ht.nonempty ht.ne_dot
  have hslash : ch ≠ '/' := fun he => ht.slash (he ▸ hch)
  simp [HostPath.isSep, hslash]

/-- Nothing stood at the temporary name when the entry was copied. -/
def CopyEvent.temporaryFree : CopyEvent UnixHost → Bool
  | .leaf _ dest before => (before.find (tmpOf dest)).isNone
  | _ => true

def TemporariesFree (log : List (CopyEvent UnixHost)) : Prop := ∀ ev ∈ log, ev.temporaryFree = true

theorem TemporariesFree.leaf {log : List (CopyEvent UnixHost)} (h : TemporariesFree log) {loc : Loc}
    {dest : HostPath} {before : UnixHost} (hmem : .leaf loc dest before ∈ log) :
    before.find (tmpOf dest) = none := Option.isNone_iff_eq_none.mp (h _ hmem)

/-- Something stood there. -/
def Spoilt (log : List (CopyEvent UnixHost)) : Prop := ¬ TemporariesFree log

theorem Spoilt.append (log : List (CopyEvent UnixHost)) (ev : CopyEvent UnixHost) (h : Spoilt log) :
    Spoilt (log ++ [ev]) := fun hfree => h fun e he => hfree e (List.mem_append_left _ he)

/-! ## What is kept -/

/-- The nodes that a copy may change: what is new, and some directories with all that is in
them. Paths start in a directory. -/
structure Ground (S : Nat → Prop) (b : UnixHost) : Prop where
  new : ∀ n, b.files.size ≤ n → S n
  closed : ∀ d x n, S d → b.files.lookup d x = some n → S n
  start : b.isDir [] = true

theorem Ground.within {S : Nat → Prop} {b h : UnixHost} (hg : Ground S b) (hw : Within S b h) : Ground S h where
  new n hn := hg.new n (hw.grows.size_le.trans hn)
  closed d x n hd hn := (hw.entries d x n hn).elim (hg.closed d x n hd) (hg.new n)
  start := hw.isDir hg.start

/-- A copy goes on: `Within` says what becomes of the host, and no warning and no event is taken
back. -/
structure Work.Onward (S : Nat → Prop) (w w' : Work UnixHost) : Prop where
  within : Within S w.host w'.host
  warnings : w.report.warnings <+: w'.report.warnings
  log : w.log <+: w'.log

theorem Work.Onward.of_host {S : Nat → Prop} {w w' : Work UnixHost} (hhost : w'.host = w.host)
    (hw : w.report.warnings <+: w'.report.warnings) (hlog : w.log <+: w'.log) : w.Onward S w' :=
  ⟨hhost ▸ Within.refl _ _, hw, hlog⟩

/-- What is so still when a copy has gone on that changes no other nodes. -/
structure Stable (S : Nat → Prop) (T : Work UnixHost → Prop) : Prop where
  later : ∀ w w', T w → w.Onward S w' → T w'
  ground : ∀ w, T w → Ground S w.host

theorem stable_within {S : Nat → Prop} {b : UnixHost} (hg : Ground S b) : Stable S fun w => Within S b w.host :=
  ⟨fun _ _ h hw => h.trans hw.within, fun _ h => hg.within h⟩

theorem Stable.and {S : Nat → Prop} {T R : Work UnixHost → Prop} (hT : Stable S T)
    (hR : ∀ w w', R w → w.Onward S w' → R w') : Stable S fun w => T w ∧ R w :=
  ⟨fun w w' hh hw => ⟨hT.later w w' hh.1 hw, hR w w' hh.2 hw⟩, fun w hh => hT.ground w hh.1⟩

theorem Stable.sited {S : Nat → Prop} {T : Work UnixHost → Prop} (hT : Stable S T) (path : HostPath) :
    Stable S fun w => T w ∧ Sited S path w.host := hT.and fun _ _ hs hw => hs.within hw.within

namespace Copier

variable {β : Type} (c : Copier β UnixHost HostPath) (s₀ : FsState β)

/-- What was read for a directory was listed, and there is a directory. -/
def DirThere (loc : Loc) (dest : HostPath) (w : Work UnixHost) : Prop :=
  ∃ i rel, c.fs.Sometime s₀ (c.fs.inode loc) (· = i) ∧ i.isDir = true ∧ .listed loc rel dest ∈ w.log ∧
    w.host.isDir dest = true

/-- There is a file with what was read. -/
def FileThere (loc : Loc) (dest : HostPath) (h : UnixHost) (i : Inode) : Prop :=
  ∃ n data, h.walk dest = some n ∧ h.files.body n = some (.file data) ∧ c.Holds s₀ loc i data

/-- What was read for no directory: there is a link or a file, or a warning. -/
def LeafThere (loc : Loc) (src : Text) (dest : HostPath) (w : Work UnixHost) : Prop :=
  (∃ i, c.fs.Sometime s₀ (c.fs.inode loc) (· = i) ∧ i.isDir = false) ∧
    c.Came s₀ loc src w.report.warnings (w.host.Linked dest) (c.FileThere s₀ loc dest w.host)

/-- What came of an entry that was tried: it is withheld, or it is there. -/
def There (dir : Loc) (e : Entry) (src : Text) (dest : HostPath) (w : Work UnixHost) : Prop :=
  c.Withheld s₀ dir e ∨ c.DirThere s₀ e.loc dest w ∨ c.LeafThere s₀ e.loc src dest w

/-- What came of what was to be copied: it is there, and what is no directory may be in the
directory that it was to be copied to. -/
def StartThere (src : Loc) (srcPath : Text) (dest : HostPath) (w : Work UnixHost) : Prop :=
  c.DirThere s₀ src dest w ∨ c.LeafThere s₀ src srcPath dest w ∨
    w.host.isDir dest = true ∧ c.LeafThere s₀ src srcPath
      (dest ++ [hostName c.platform (srcPath.rtakeWhile (· ≠ '/'))]) w

/-- All that was copied is there. -/
def Delivered (w : Work UnixHost) : Prop :=
  ∀ dir e src dest, .tried dir e src dest (.ok ()) ∈ w.log → c.There s₀ dir e src dest w

/-- What holds of a run, unless something stood at a temporary name. -/
abbrev Standing (T : Work UnixHost → Prop) (t : FsState β × Work UnixHost) : Prop :=
  Spoilt t.2.log ∨ (Going c.fs s₀ T t ∧ c.Delivered s₀ t.2)

/-- Nothing else was copied. -/
def Copied (log : List (CopyEvent UnixHost)) (w : Work UnixHost) : Prop :=
  ∀ dir e src dest, .tried dir e src dest (.ok ()) ∈ w.log → .tried dir e src dest (.ok ()) ∈ log

variable {c s₀} {log : List (CopyEvent UnixHost)} {S : Nat → Prop} {T T' R : Work UnixHost → Prop} {α : Type}
  {w w' : Work UnixHost}

theorem DirThere.later {loc : Loc} {dest : HostPath} (h : c.DirThere s₀ loc dest w) (hw : w.Onward S w') :
    c.DirThere s₀ loc dest w' := by
  obtain ⟨i, rel, hi, hd, hlisted, hdir⟩ := h
  exact ⟨i, rel, hi, hd, hw.log.subset hlisted, hw.within.isDir hdir⟩

theorem FileThere.within {loc : Loc} {dest : HostPath} {h h' : UnixHost} {i : Inode}
    (hf : c.FileThere s₀ loc dest h i) (hw : Within S h h') : c.FileThere s₀ loc dest h' i := by
  obtain ⟨n, data, hn, hbody, hholds⟩ := hf
  exact ⟨n, data, hw.walk hn, hw.grows.body_same hbody nofun, hholds⟩

theorem came_later {loc : Loc} {src : Text} {dest : HostPath}
    (h : c.Came s₀ loc src w.report.warnings (w.host.Linked dest) (c.FileThere s₀ loc dest w.host))
    (hw : w.Onward S w') :
    c.Came s₀ loc src w'.report.warnings (w'.host.Linked dest) (c.FileThere s₀ loc dest w'.host) :=
  h.mono hw.warnings (fun _ hl => hl.within hw.within) fun _ hf => hf.within hw.within

theorem LeafThere.later {loc : Loc} {src : Text} {dest : HostPath} (h : c.LeafThere s₀ loc src dest w)
    (hw : w.Onward S w') : c.LeafThere s₀ loc src dest w' := ⟨h.1, came_later h.2 hw⟩

theorem There.later {dir : Loc} {e : Entry} {src : Text} {dest : HostPath} (h : c.There s₀ dir e src dest w)
    (hw : w.Onward S w') : c.There s₀ dir e src dest w' :=
  h.imp_right fun h => h.imp (fun h => h.later hw) fun h => h.later hw

theorem Delivered.later (hd : c.Delivered s₀ w) (hlog : Copied w.log w') (hw : w.Onward S w') :
    c.Delivered s₀ w' :=
  fun dir e src dest he => (hd dir e src dest (hlog dir e src dest he)).later hw

theorem respects_copied : c.Respects (fun _ => True) (Copied log) :=
  respects_of_frame c fun _ _ _ h => h

theorem Copied.record (h : Copied log w) {ev : CopyEvent UnixHost}
    (hev : ∀ dir e src dest, ev ≠ .tried dir e src dest (.ok ())) :
    Copied log { w with log := w.log ++ [ev] } := by
  intro dir e src dest he
  rcases List.mem_append.mp he with he | he
  · exact h dir e src dest he
  · exact absurd (List.mem_singleton.mp he).symm (hev dir e src dest)

theorem Standing.less {u : FsState β × Work UnixHost} (hu : c.Standing s₀ (fun w => T w ∧ R w) u) :
    c.Standing s₀ T u := hu.imp_right fun h => ⟨⟨h.1.1, h.1.2.1⟩, h.2⟩

/-- What only adds to the host, and copies nothing of its own. -/
theorem stands_of_start (hT : Stable S T) {x : CopyM β UnixHost α} {R : α → Work UnixHost → Prop}
    (hquiet : c.Discreet x) (hx : ∀ t, Going c.fs s₀ T t → Ensures (· = t) x
      (fun a u => Spoilt u.2.log ∨ Going c.fs s₀ (fun w => Within S t.2.host w.host ∧ R a w) u)
      fun _ u => Spoilt u.2.log ∨ Going c.fs s₀ (fun w => Within S t.2.host w.host) u) :
    Ensures (c.Standing s₀ T) x (fun a => c.Standing s₀ fun w => T w ∧ R a w)
      fun _ => c.Standing s₀ T := by
  have hspoilt : Keeps (OfWork (OfLog Spoilt)) x := hquiet _ respects_log fun w _ _ => Spoilt.append w.log _
  have hlog (log : List (CopyEvent UnixHost)) : Keeps (OfWork (Copied log)) x :=
    hquiet _ respects_copied fun _ _ _ h => h.record nofun
  have hwarn (warnings : List String) : Keeps (OfWork fun w => warnings <+: w.report.warnings) x :=
    hquiet _ (respects_warnings warnings) fun _ _ _ h => h
  have hgoes (log : List (CopyEvent UnixHost)) : Keeps (OfWork fun w => log <+: w.log) x :=
    hquiet _ respects_log fun _ _ _ h => h.trans (List.prefix_append _ _)
  refine Ensures.unless hspoilt ?_ |>.mono (fun _ h => h)
    (fun _ _ h => h.elim .inl fun h => h) fun _ _ h => h.elim .inl fun h => h
  refine Ensures.of_outcomes ?_ ?_
  · intro t a u ht hrun
    refine ((hx t ht.1).ok rfl hrun).imp_right fun hu => ?_
    have hcopied := (hlog t.2.log).ok (fun _ _ _ _ he => he) hrun
    have honward : t.2.Onward S u.2 := ⟨hu.2.1, (hwarn t.2.report.warnings).ok (List.prefix_refl _) hrun,
      (hgoes t.2.log).ok (List.prefix_refl _) hrun⟩
    exact ⟨⟨hu.1, hT.later _ _ ht.1.2 honward, hu.2.2⟩, ht.2.later hcopied honward⟩
  · intro t e u ht hrun
    refine ((hx t ht.1).error rfl hrun).imp_right fun hu => ?_
    have hcopied := (hlog t.2.log).error (fun _ _ _ _ he => he) hrun
    have honward : t.2.Onward S u.2 := ⟨hu.2, (hwarn t.2.report.warnings).error (List.prefix_refl _) hrun,
      (hgoes t.2.log).error (List.prefix_refl _) hrun⟩
    exact ⟨⟨hu.1, hT.later _ _ ht.1.2 honward⟩, ht.2.later hcopied honward⟩

/-- What has no part in the host. -/
theorem stands_of_frame {x : CopyM β UnixHost α} {R : α → Prop} (hquiet : c.Discreet x)
    (hx : ∀ P : UnixHost → Prop, Ensures (c.Reading s₀ P) x (fun a t => c.Reading s₀ P t ∧ R a)
      fun _ => c.Reading s₀ P) (hT : Stable S T) :
    Ensures (c.Standing s₀ T) x (fun a => c.Standing s₀ fun w => T w ∧ R a)
      fun _ => c.Standing s₀ T := by
  refine stands_of_start hT hquiet fun t ht => ?_
  refine (hx (Within S t.2.host)).mono (fun u hu => ?_)
    (fun a u h => .inr ⟨h.1.1, h.1.2, h.2⟩) fun _ u h => .inr h
  rw [hu]
  exact ⟨ht.1, Within.refl _ _⟩

/-- A change that says nothing of what was copied. -/
theorem modify_stands (hT : Stable S T) {g : Work UnixHost → Work UnixHost} (hhost : ∀ w, (g w).host = w.host)
    (hwarn : ∀ w, w.report.warnings <+: (g w).report.warnings) (hgoes : ∀ w, w.log <+: (g w).log)
    (hlog : ∀ log w, Copied log w → Copied log (g w)) (hspoilt : ∀ w : Work UnixHost, Spoilt w.log → Spoilt (g w).log) :
    Keeps (c.Standing s₀ T) (onSnd (modify g) : CopyM β UnixHost PUnit) := by
  refine Ensures.of_state fun t ht => ht.imp (hspoilt _) fun h => ?_
  have honward : t.2.Onward S (g t.2) := .of_host (hhost t.2) (hwarn t.2) (hgoes t.2)
  exact ⟨⟨h.1.1, hT.later _ _ h.1.2 honward⟩, h.2.later (hlog _ _ fun _ _ _ _ he => he) honward⟩

theorem report_stands (hT : Stable S T) {f : Report → Report} (hf : ∀ r : Report, r.warnings <+: (f r).warnings) :
    Keeps (c.Standing s₀ T) (report f) :=
  modify_stands hT (fun _ => rfl) (fun w => hf w.report) (fun _ => List.prefix_refl _) (fun _ _ h => h)
    fun _ h => h

/-- A report that says nothing new. -/
theorem quiet_stands (hT : Stable S T) {f : Report → Report} (hf : ∀ r : Report, (f r).warnings = r.warnings) :
    Keeps (c.Standing s₀ T) (report f) := report_stands hT fun r => hf r ▸ List.prefix_refl _

theorem record_stands (hT : Stable S T) {ev : CopyEvent UnixHost}
    (hev : ∀ dir e src dest, ev ≠ .tried dir e src dest (.ok ())) : Keeps (c.Standing s₀ T) (record ev) :=
  modify_stands hT (fun _ => rfl) (fun _ => List.prefix_refl _) (fun _ => List.prefix_append _ _)
    (fun _ _ h => h.record hev) fun w h => h.append w.log ev

/-- It is recorded, and stays so. -/
theorem record_noted (hT : Stable S T) {ev : CopyEvent UnixHost}
    (hev : ∀ dir e src dest, ev ≠ .tried dir e src dest (.ok ())) :
    Ensures (c.Standing s₀ T) (record ev) (fun _ => c.Standing s₀ fun w => T w ∧ ev ∈ w.log)
      fun _ => c.Standing s₀ T := by
  intro t ht
  refine ((record_stands hT hev).ok ht rfl).imp_right fun h => ⟨⟨h.1.1, h.1.2, ?_⟩, h.2⟩
  exact List.mem_append_right _ List.mem_cons_self

/-- It is recorded that an entry was copied, which is there. -/
theorem record_there (hT : Stable S T) {dir : Loc} {e : Entry} {src : Text} {dest : HostPath} :
    Ensures (c.Standing s₀ fun w => T w ∧ c.There s₀ dir e src dest w)
      (record (.tried dir e src dest (.ok ()))) (fun _ => c.Standing s₀ T) fun _ => c.Standing s₀ T := by
  refine Ensures.of_state fun t ht => ht.imp (fun h => h.append _ _) fun h => ?_
  have honward : t.2.Onward S { t.2 with log := t.2.log ++ [.tried dir e src dest (.ok ())] } :=
    .of_host rfl (List.prefix_refl _) (List.prefix_append _ _)
  refine ⟨⟨h.1.1, hT.later _ _ h.1.2.1 honward⟩, fun dir' e' src' dest' he => ?_⟩
  rcases List.mem_append.mp he with he | he
  · exact (h.2 dir' e' src' dest' he).later honward
  · cases List.mem_singleton.mp he
    exact h.1.2.2.later honward

theorem onFst_stands {x : FsM β α} (hx : Keeps (c.fs.Later s₀) x) (hT : Stable S T) :
    Ensures (c.Standing s₀ T) (onFst x)
      (fun a => c.Standing s₀ fun w => T w ∧ c.fs.Sometime s₀ x (· = a))
      fun _ => c.Standing s₀ T :=
  stands_of_frame (fun _ _ _ => onFst_keeps _ _) (fun _ => onFst_going (Fs.sometime_of_keeps hx)) hT

theorem skips_stands (hT : Stable S T) (e : Entry) (dir : Loc) :
    Ensures (c.Standing s₀ T) (c.skips e dir)
      (fun skip => c.Standing s₀ fun w => T w ∧ (skip = true → c.Withheld s₀ dir e))
      fun _ => c.Standing s₀ T :=
  stands_of_frame (fun _ _ _ => skips_keeps _ _ _) (fun _ => skips_going e dir) hT

section unix

variable (hc : c.host = unixHost)

include hc

/-- A directory is made where no link is. -/
theorem enter_ensures {b : UnixHost} {dest : HostPath} {Q E : UnixHost → Prop} (hdeaf : Deaf Q)
    (hQ : ∀ h, Q h → E h) (hU : ∀ h, Untouched b h → E h)
    (hmake : (∀ n, b.find dest = some n → b.files.isLink n = false) →
      Ensures (Untouched b) (createDirAll dest.length dest) (fun _ => Q) fun _ => E) (dir : Loc) (src : Text) :
    Ensures (c.Reading s₀ (Untouched b)) (c.enter dir src dest) (fun _ => c.Reading s₀ Q)
      fun _ => c.Reading s₀ E := by
  have hlook : Ensures (c.Reading s₀ (Untouched b))
      (onSnd (hostCall hostError (c.host.symlinkMetadata dest)))
      (fun v t => c.Reading s₀ (Untouched b) t ∧ ∀ n, b.find dest = some n → b.files.isLink n = v)
      fun _ t => c.Reading s₀ (Untouched b) t ∧ b.find dest = none := by
    rw [hc]
    rintro ⟨s, w⟩ ⟨hs, hu⟩
    have hfind := hu.find dest
    unfold onSnd hostCall
    dsimp only
    cases hn : w.host.find dest with
    | none =>
      rw [symlinkMetadata_none hn]
      exact ⟨⟨hs, hu⟩, by rw [← hfind, hn]⟩
    | some n =>
      rw [symlinkMetadata_some hn]
      refine ⟨⟨hs, hu⟩, fun m hm => ?_⟩
      obtain rfl : n = m := Option.some.inj (hn.symm.trans (hfind.trans hm))
      rw [hu.files]
  have hrest (hlink : ∀ n, b.find dest = some n → b.files.isLink n = false) :
      Ensures (c.Reading s₀ (Untouched b)) (do
        onSnd (hostCall (fun e => .context s!"creating {dest.display}" (hostError e))
          (c.host.createDirAll dest))
        report fun r => { r with dirs := r.dirs + 1 }
        c.manifest dir src dest none : CopyM β UnixHost Unit)
        (fun _ => c.Reading s₀ Q) fun _ => c.Reading s₀ E := by
    rw [hc]
    refine (hostCall_reading (hmake hlink)).bind fun _ => ?_
    exact ((report_reading _).bind fun _ => manifest_reading hc hdeaf dir src dest none).mono
      (fun _ h => h) (fun _ _ h => h) fun _ _ h => ⟨h.1, hQ _ h.2⟩
  refine hlook.attempt.bind fun r => ?_
  cases r with
  | error e =>
    refine Ensures.fact fun hnone => hrest fun n hn => ?_
    rw [hnone] at hn
    cases hn
  | ok v =>
    refine Ensures.fact fun hlink => ?_
    refine Ensures.bind (Q := fun _ t => c.Reading s₀ (Untouched b) t ∧ v = false)
      (Ensures.lift (fun u hok t ht => ⟨ht, ?_⟩) fun e _ t ht => ⟨ht.1, hU _ ht.2⟩)
      fun _ => Ensures.fact fun hv => hrest fun n hn => (hlink n hn).trans hv
    cases v with
    | false => rfl
    | true => simp [bailIf] at hok

/-- Where it is made, it is a directory of those that may change. -/
theorem enter_reading {b : UnixHost} (hg : Ground S b) {dest : HostPath} (hplace : Makeable S dest b)
    (dir : Loc) (src : Text) :
    Ensures (c.Reading s₀ (Untouched b)) (c.enter dir src dest)
      (fun _ => c.Reading s₀ fun h => Within S b h ∧ Sited S dest h) fun _ => c.Reading s₀ (Within S b) := by
  have hdeaf : Deaf fun h => Within S b h ∧ Sited S dest h :=
    fun h k lines hh => ⟨Within.deaf h k lines hh.1, hh.2⟩
  exact enter_ensures hc hdeaf (fun _ h => h.1) (fun _ h => h.within S)
    (fun hlink => createDirAll_sites hg.new hg.closed hg.start hplace hlink) dir src

theorem enter_stands (hT : Stable S T) (dir : Loc) (src : Text) (dest : HostPath) :
    Ensures (c.Standing s₀ fun w => T w ∧ Makeable S dest w.host) (c.enter dir src dest)
      (fun _ => c.Standing s₀ fun w => T w ∧ Sited S dest w.host) fun _ => c.Standing s₀ T := by
  have hT' : Stable S fun w => T w ∧ Makeable S dest w.host := hT.and fun _ _ hm hw => hm.within hw.within
  refine (stands_of_start (R := fun _ w => Sited S dest w.host) hT' (enter_discreet dir src dest)
    fun t ht => ?_).mono (fun _ h => h)
    (fun _ t ht => ht.imp_right fun h => ⟨⟨h.1.1, h.1.2.1.1, h.1.2.2⟩, h.2⟩) fun _ t ht => ht.less
  refine (enter_reading hc (hT'.ground _ ht.2) ht.2.2 dir src).mono (fun u hu => ?_)
    (fun _ u h => .inr h) fun _ u h => .inr h
  rw [hu]
  exact ⟨ht.1, Untouched.refl _⟩

theorem setMtime_stands (hT : Stable S T) (dir : Loc) (dest : HostPath) :
    Ensures (c.Standing s₀ fun w => T w ∧ Sited S dest w.host) (c.setMtime dir dest)
      (fun _ => c.Standing s₀ fun w => T w ∧ Sited S dest w.host) fun _ => c.Standing s₀ T := by
  refine (stands_of_start (R := fun _ _ => True) (hT.sited dest) (setMtime_discreet dir dest)
    fun t ht => ?_).mono (fun _ h => h) (fun _ t ht => ht.less) fun _ t ht => ht.less
  have hset : Keeps (c.Reading s₀ (Within S t.2.host)) (c.setMtime dir dest) := setMtime_reading hc Within.deaf
    (fun sec nsec h h' hw hrun => Within.touch hw (ht.2.2.within hw) hrun) dir
  refine hset.mono (fun u hu => ?_) (fun _ u h => .inr ⟨h.1, h.2, trivial⟩) fun _ u h => .inr h
  rw [hu]
  exact ⟨ht.1, Within.refl _ _⟩

variable (hp : c.platform.windows = false) (hforce : c.opts.force = false)

include hp hforce

/-- What was copied is there. -/
theorem copyLeaf_stands (hT : Stable S T) {x : Text} (hx : UnixName x) {base : HostPath}
    (hbase : ∀ w, T w → ∀ d, w.host.walk base = some d → S d) (loc : Loc) (src : Text) :
    Ensures (c.Standing s₀ T) (c.copyLeaf loc src (base ++ [x]))
      (fun _ => c.Standing s₀ fun w => T w ∧ c.Came s₀ loc src w.report.warnings
        (w.host.Linked (base ++ [x])) (c.FileThere s₀ loc (base ++ [x]) w.host))
      fun _ => c.Standing s₀ T := by
  refine stands_of_start hT (copyLeaf_discreet loc src (base ++ [x])) fun t ht => ?_
  by_cases hnone : t.2.host.find (base ++ [temporary x]) = none
  · have hsite : Site S base x (temporary x) t.2.host :=
      ⟨⟨hx.ne_dots, (unixName_temporary hx).ne_dots⟩, temporary_ne x, (hT.ground _ ht.2).new,
        hbase _ ht.2, hnone⟩
    have hname : (base ++ [x]).withFileName c.platform (partialName (base ++ [x])) =
        base ++ [temporary x] := by
      rw [show c.platform = ⟨false⟩ by rw [← hp]]
      exact tmpOf_concat hx base
    have hlands : Ensures (c.Reading s₀ (Untouched t.2.host)) (c.copyLeaf loc src (base ++ [x]))
        (fun _ => Going c.fs s₀ (c.Brought s₀ S base x (temporary x) t.2.host loc src))
        fun _ => c.Reading s₀ (Lands S base x (temporary x) t.2.host) :=
      copyLeaf_lands hc hsite hp (.inl hforce) hname loc src
    refine hlands.mono (fun u hu => ?_) (fun _ u h => .inr ⟨h.1, h.2.1.within, ?_⟩)
      fun _ u h => .inr ⟨h.1, h.2.within⟩
    · rw [hu]
      exact ⟨ht.1, Untouched.refl _⟩
    · refine h.2.2.mono (List.prefix_refl _) (fun _ hl => hl) fun i harrived => ?_
      obtain ⟨data, hland, hholds⟩ := harrived
      obtain ⟨n, -, hn, hbody⟩ := hland.file
      exact ⟨n, data, hn, hbody, hholds⟩
  · -- That is recorded.
    have hspoilt : Spoilt (t.2.log ++ [.leaf loc (base ++ [x]) t.2.host]) := by
      intro hfree
      have := TemporariesFree.leaf hfree (List.mem_append_right _ List.mem_cons_self)
      rw [tmpOf_concat hx] at this
      exact hnone this
    have hrest : Ensures (fun u => u = t) (c.copyLeaf loc src (base ++ [x]))
        (fun _ u => Spoilt u.2.log) fun _ u => Spoilt u.2.log := by
      rintro u rfl
      exact leafRest_keeps (respects_log (c := c) (R := Spoilt)) loc src trivial trivial _ hspoilt
    exact hrest.mono (fun _ h => h) (fun _ _ h => .inl h) fun _ _ h => .inl h

section entries

/-- A directory was listed, and those that may change hold one for it. -/
abbrev Opened (S : Nat → Prop) (dir : Loc) (dest : HostPath) (w : Work UnixHost) : Prop :=
  Sited S dest w.host ∧ ∃ rel, .listed dir rel dest ∈ w.log

variable {recurse : Recurse β UnixHost} (hrec : ∀ {T : Work UnixHost → Prop}, Stable S T → ∀ loc src rel dest,
  Ensures (c.Standing s₀ fun w => T w ∧ Makeable S dest w.host) (recurse loc src rel dest)
    (fun _ => c.Standing s₀ fun w => T w ∧ Opened S loc dest w) fun _ => c.Standing s₀ T)

include hrec

theorem copyEntry_stands (hT : Stable S T) {x : Text} (hx : UnixName x) {base : HostPath}
    (hbase : ∀ w, T w → Sited S base w.host) (e : Entry) (dir : Loc) (src rel : Text) :
    Ensures (c.Standing s₀ T) (c.copyEntry recurse e dir src rel (base ++ [x]))
      (fun _ => c.Standing s₀ fun w => T w ∧ c.There s₀ dir e src (base ++ [x]) w)
      fun _ => c.Standing s₀ T := by
  refine (skips_stands hT e dir).bind fun skip => ?_
  by_cases hskip : skip = true
  · rw [if_pos hskip]
    have hT' : Stable S fun w => T w ∧ (skip = true → c.Withheld s₀ dir e) := hT.and fun _ _ h _ => h
    have hreport : Keeps (c.Standing s₀ fun w => T w ∧ (skip = true → c.Withheld s₀ dir e))
        (report fun r => { r with excluded := r.excluded + 1 }) := quiet_stands hT' fun _ => rfl
    refine hreport.mono (fun _ h => h) (fun _ u hu => ?_) fun _ u hu => hu.less
    exact hu.imp_right fun h => ⟨⟨h.1.1, h.1.2.1, .inl (h.1.2.2 hskip)⟩, h.2⟩
  · rw [if_neg hskip]
    refine Ensures.mono ?_ (fun u hu => hu.less) (fun _ _ h => h) fun _ _ h => h
    refine (onFst_stands (Fs.inode_keeps e.loc) hT).bind fun i => ?_
    have hTi : Stable S fun w => T w ∧ c.fs.Sometime s₀ (c.fs.inode e.loc) (· = i) :=
      hT.and fun _ _ hi _ => hi
    by_cases hdir : i.isDir = true
    · rw [if_pos hdir]
      refine (hrec hTi e.loc src rel (base ++ [x])).mono (fun u hu => hu.imp_right fun h => ?_)
        (fun _ u hu => hu.imp_right fun h => ?_) fun _ u hu => hu.less
      · exact ⟨⟨h.1.1, h.1.2, .inr (.inr ⟨base, x, rfl, hx.ne_dots, hbase _ h.1.2.1⟩)⟩, h.2⟩
      · obtain ⟨⟨hs, ⟨hT, hi⟩, hsited, rel, hlisted⟩, hd⟩ := h
        exact ⟨⟨hs, hT, .inr (.inl ⟨i, rel, hi, hdir, hlisted, hsited.isDir⟩)⟩, hd⟩
    · rw [if_neg hdir]
      have hinside : ∀ w, T w ∧ c.fs.Sometime s₀ (c.fs.inode e.loc) (· = i) →
          ∀ d, w.host.walk base = some d → S d := by
        intro w hw d hd
        obtain ⟨d', hd', -, hS⟩ := hbase w hw.1
        rwa [Option.some.inj (hd.symm.trans hd')]
      refine (copyLeaf_stands hc hp hforce hTi hx hinside e.loc src).mono (fun _ h => h)
        (fun _ u hu => ?_) fun _ u hu => hu.less
      refine hu.imp_right fun h => ⟨⟨h.1.1, h.1.2.1.1, .inr (.inr ⟨⟨i, h.1.2.1.2, ?_⟩, h.1.2.2⟩)⟩, h.2⟩
      exact Bool.eq_false_iff.mpr hdir

theorem tryEntry_stands (hT : Stable S T) {x : Text} (hx : UnixName x) {base : HostPath}
    (hbase : ∀ w, T w → Sited S base w.host) (e : Entry) (dir : Loc) (src rel : Text) :
    Keeps (c.Standing s₀ T) (c.tryEntry recurse e dir src rel (base ++ [x])) := by
  refine (copyEntry_stands hc hp hforce hrec hT hx hbase e dir src rel).attempt.bind fun r => ?_
  cases r with
  | ok u => exact (record_there hT).bind fun _ => Ensures.pure fun _ h => h
  | error err =>
    refine Keeps.bind (record_stands hT fun _ _ _ _ he => by cases he) fun _ => ?_
    exact report_stands hT fun _ => List.prefix_append _ _

theorem copyOne_stands (hT : Stable S T) {dest : HostPath} (hdest : ∀ w, T w → Sited S dest w.host) (dir : Loc)
    (src rel : Text) (x : Entry × List Text) :
    Keeps (c.Standing s₀ T) (c.copyOne recurse dir src rel dest x) := by
  refine Keeps.bind (record_stands hT fun _ _ _ _ he => by cases he) fun _ => ?_
  cases hgive : c.give rel x.2 x.1 with
  | none => exact quiet_stands hT fun _ => rfl
  | some host =>
    have hsafe : SafeName c.platform host := by
      obtain ⟨-, rfl⟩ := give_eq_some.mp hgive
      exact safeName_chosenName _ _
    have htry := tryEntry_stands hc hp hforce hrec hT hsafe.unixName hdest x.1 dir
    have hwarn {f : Report → Report} (text : String) (hf : ∀ r, (f r).warnings = r.warnings ++ [text]) :
        Keeps (c.Standing s₀ T) (report f) := report_stands hT fun r => hf r ▸ List.prefix_append _ _
    dsimp only
    rw [hsafe.join]
    refine .ite (fun _ => Keeps.bind (hwarn _ fun _ => rfl) fun _ => ?_) fun _ => ?_
    all_goals exact .ite (fun _ => hwarn _ fun _ => rfl) fun _ => htry _ _

theorem copyDirInner_stands (hT : Stable S T) (dir : Loc) (src rel : Text) (dest : HostPath) :
    Ensures (c.Standing s₀ fun w => T w ∧ Makeable S dest w.host) (c.copyDirInner recurse dir src rel dest)
      (fun _ => c.Standing s₀ fun w => T w ∧ Opened S dir dest w) fun _ => c.Standing s₀ T := by
  have hT' := hT.sited dest
  refine (enter_stands hc hT dir src dest).attempt.bind fun r => ?_
  cases r with
  | error e =>
    exact Ensures.bind (record_stands hT fun _ _ _ _ he => by cases he) fun _ => Ensures.throw fun _ h => h
  | ok u =>
    have hkeep {T : Work UnixHost → Prop} {α : Type} {x : CopyM β UnixHost α}
        (h : Keeps (c.Standing s₀ fun w => T w ∧ Sited S dest w.host) x) :
        Ensures (c.Standing s₀ fun w => T w ∧ Sited S dest w.host) x
          (fun _ => c.Standing s₀ fun w => T w ∧ Sited S dest w.host) fun _ => c.Standing s₀ T :=
      h.mono (fun _ h => h) (fun _ _ h => h) fun _ u hu => hu.less
    have hlisted : Keeps (c.Standing s₀ fun w => T w ∧ Sited S dest w.host) (onFst (c.fs.readdir dir)) :=
      (onFst_stands (Fs.readdir_keeps dir) hT').mono (fun _ h => h) (fun _ u hu => hu.less) fun _ _ h => h
    -- What was recorded stays so while the entries are copied.
    have hT'' : Stable S fun w => T w ∧ CopyEvent.listed dir rel dest ∈ w.log :=
      hT.and fun _ _ h hw => hw.log.subset h
    have hentries (es : List Entry) : Keeps
        (c.Standing s₀ fun w => (T w ∧ CopyEvent.listed dir rel dest ∈ w.log) ∧ Sited S dest w.host)
        (c.copyEntries recurse dir src rel dest es []) := by
      rw [copyEntries_eq]
      exact Ensures.forEach fun x _ =>
        copyOne_stands hc hp hforce hrec (hT''.sited dest) (fun _ h => h.2) dir src rel x
    refine (hkeep (record_stands hT' fun _ _ _ _ he => by cases he)).bind fun _ => (hkeep hlisted).bind fun es => ?_
    refine Ensures.bind ((record_noted hT' fun _ _ _ _ he => by cases he).mono (fun _ h => h) (fun _ _ h => h)
      fun _ u hu => hu.less) fun _ => ?_
    refine ((hkeep (hentries es)).bind fun _ => setMtime_stands hc hT'' dir dest).mono
      (fun u hu => hu.imp_right fun h => ⟨⟨h.1.1, ⟨h.1.2.1.1, h.1.2.2⟩, h.1.2.1.2⟩, h.2⟩)
      (fun _ u hu => hu.imp_right fun h => ?_) fun _ u hu => hu.less
    exact ⟨⟨h.1.1, h.1.2.1.1, h.1.2.2, rel, h.1.2.1.2⟩, h.2⟩

end entries

theorem copyDir_stands : ∀ (left : Nat) {T : Work UnixHost → Prop}, Stable S T → ∀ (dir : Loc) (src rel : Text)
    (dest : HostPath),
    Ensures (c.Standing s₀ fun w => T w ∧ Makeable S dest w.host) (c.copyDir left dir src rel dest)
      (fun _ => c.Standing s₀ fun w => T w ∧ Opened S dir dest w) fun _ => c.Standing s₀ T
  | 0, _, hT, _, _, _, _ =>
    Ensures.bind ((record_stands hT fun _ _ _ _ he => by cases he).mono (fun _ h => h.less) (fun _ _ h => h)
      fun _ _ h => h) fun _ => Ensures.throw fun _ h => h
  | left + 1, T, hT, dir, src, rel, dest => by
    have hTm : Stable S fun w => T w ∧ Makeable S dest w.host := hT.and fun _ _ hm hw => hm.within hw.within
    have hless {α : Type} {x : CopyM β UnixHost α}
        (h : Keeps (c.Standing s₀ fun w => T w ∧ Makeable S dest w.host) x) :
        Ensures (c.Standing s₀ fun w => T w ∧ Makeable S dest w.host) x
          (fun _ => c.Standing s₀ fun w => T w ∧ Makeable S dest w.host) fun _ => c.Standing s₀ T :=
      h.mono (fun _ h => h) (fun _ _ h => h) fun _ u hu => hu.less
    have hset {T : Work UnixHost → Prop} (hT : Stable S T) (f : List Loc → List Loc) :
        Keeps (c.Standing s₀ T) (onSnd (modify fun w => { w with ancestors := f w.ancestors })) :=
      modify_stands hT (fun _ => rfl) (fun _ => List.prefix_refl _) (fun _ => List.prefix_refl _)
        (fun _ _ h => h) fun _ h => h
    have hinner := copyDirInner_stands hc hp hforce (copyDir_stands left) hT dir src rel dest
    refine (hless (record_stands hTm fun _ _ _ _ he => by cases he)).bind fun _ => ?_
    refine (hless Keeps.get).bind fun w => (hless (Keeps.lift _)).bind fun _ => ?_
    refine (hless (hset hTm fun l => dir :: l)).bind fun _ => hinner.attempt.bind fun r => ?_
    cases r with
    | error e => exact Ensures.bind (hset hT fun l => l.erase dir) fun _ => Ensures.throw fun _ h => h
    | ok u =>
      have hTo : Stable S fun w => T w ∧ Opened S dir dest w := hT.and fun _ _ h hw =>
        ⟨h.1.within hw.within, h.2.imp fun _ h => hw.log.subset h⟩
      exact (Keeps.bind (hset hTo fun l => l.erase dir) fun _ => Keeps.lift _).mono (fun _ h => h)
        (fun _ _ h => h) fun _ u hu => hu.less

theorem copy_stands (hT : Stable S T) (src : Loc) (srcPath : Text) {dest : HostPath} (hdest : Named dest)
    (hplace : ∀ w, T w → (∀ n, S n) ∨ Sited S dest w.host) :
    Ensures (c.Standing s₀ T) (c.copy src srcPath dest)
      (fun _ => c.Standing s₀ fun w => T w ∧ c.StartThere s₀ src srcPath dest w) fun _ => c.Standing s₀ T := by
  obtain ⟨base, x, rfl, hx⟩ := hdest
  refine (onFst_stands (Fs.inode_keeps src) hT).bind fun i => ?_
  have hTi : Stable S fun w => T w ∧ c.fs.Sometime s₀ (c.fs.inode src) (· = i) := hT.and fun _ _ hi _ => hi
  by_cases hdir : i.isDir = true
  · rw [if_pos hdir]
    refine (copyDir_stands hc hp hforce _ hTi src _ [] (base ++ [x])).mono
      (fun u hu => hu.imp_right fun h => ⟨⟨h.1.1, h.1.2, (hplace _ h.1.2.1).imp_right .inl⟩, h.2⟩)
      (fun _ u hu => hu.imp_right fun h => ?_) fun _ u hu => hu.less
    obtain ⟨⟨hs, ⟨hT, hi⟩, hsited, rel, hlisted⟩, hd⟩ := h
    exact ⟨⟨hs, hT, .inl ⟨i, rel, hi, hdir, hlisted, hsited.isDir⟩⟩, hd⟩
  · rw [if_neg hdir]
    have hread : ∀ w, T w ∧ c.fs.Sometime s₀ (c.fs.inode src) (· = i) →
        ∃ i, c.fs.Sometime s₀ (c.fs.inode src) (· = i) ∧ i.isDir = false :=
      fun w hw => ⟨i, hw.2, Bool.eq_false_iff.mpr hdir⟩
    have hlook : Ensures (c.Standing s₀ fun w => T w ∧ c.fs.Sometime s₀ (c.fs.inode src) (· = i))
        (attempt (onSnd (hostCall hostError (c.host.isDir (base ++ [x])))))
        (fun r => c.Standing s₀ fun w => (T w ∧ c.fs.Sometime s₀ (c.fs.inode src) (· = i)) ∧
          r = .ok (w.host.isDir (base ++ [x]))) fun _ => c.Standing s₀ T := by
      rw [hc]
      intro t ht
      have hrun : attempt (onSnd (hostCall hostError (unixHost.isDir (base ++ [x])))) t =
          .ok (.ok (t.2.host.isDir (base ++ [x]))) t := by
        simp [attempt, onSnd, hostCall, unixHost]
      rw [hrun]
      exact ht.imp_right fun h => ⟨⟨h.1.1, h.1.2, rfl⟩, h.2⟩
    -- What is at `dest` is a directory, unless something may be made there.
    have hother {r : Except Error Bool} (hr : r ≠ .ok true) :
        Ensures (c.Standing s₀ fun w => (T w ∧ c.fs.Sometime s₀ (c.fs.inode src) (· = i)) ∧
          r = .ok (w.host.isDir (base ++ [x]))) (c.copyLeaf src srcPath (base ++ [x]))
          (fun _ => c.Standing s₀ fun w => T w ∧ c.StartThere s₀ src srcPath (base ++ [x]) w)
          fun _ => c.Standing s₀ T := by
      by_cases hS : ∀ n, S n
      · refine (copyLeaf_stands hc hp hforce hTi hx (fun _ _ d _ => hS d) src srcPath).mono
          (fun u hu => hu.less) (fun _ u hu => hu.imp_right fun h => ?_) fun _ u hu => hu.less
        exact ⟨⟨h.1.1, h.1.2.1.1, .inr (.inl ⟨hread _ h.1.2.1, h.1.2.2⟩)⟩, h.2⟩
      · have hspoilt : Keeps (OfWork (OfLog Spoilt)) (c.copyLeaf src srcPath (base ++ [x])) :=
          copyLeaf_discreet src srcPath (base ++ [x]) _ respects_log fun w _ _ => Spoilt.append w.log _
        refine hspoilt.mono (fun u hu => ?_) (fun _ _ h => .inl h) fun _ _ h => .inl h
        refine hu.elim (fun h => h) fun h => absurd (h.1.2.2.trans ?_) hr
        exact congrArg Except.ok ((hplace _ h.1.2.1.1).resolve_left hS).isDir
    have hjoin : ∀ w, (T w ∧ c.fs.Sometime s₀ (c.fs.inode src) (· = i)) ∧ w.host.isDir (base ++ [x]) = true →
        ∀ d, w.host.walk (base ++ [x]) = some d → S d := by
      intro w hw d hd
      rcases hplace w hw.1.1 with hS | ⟨d', hd', -, hS⟩
      · exact hS d
      · rwa [Option.some.inj (hd.symm.trans hd')]
    refine hlook.bind fun r => ?_
    cases r with
    | error e => exact hother (by simp)
    | ok d =>
      cases d with
      | false => exact hother (by simp)
      | true =>
        have hsafe := safeName_hostName c.platform (srcPath.rtakeWhile (· ≠ '/'))
        have hTd : Stable S fun w => (T w ∧ c.fs.Sometime s₀ (c.fs.inode src) (· = i)) ∧
            w.host.isDir (base ++ [x]) = true := hTi.and fun _ _ h hw => hw.within.isDir h
        dsimp only
        rw [hsafe.join]
        refine (copyLeaf_stands hc hp hforce hTd hsafe.unixName hjoin src srcPath).mono
          (fun u hu => hu.imp_right fun h => ?_) (fun _ u hu => hu.imp_right fun h => ?_)
          fun _ u hu => hu.less.less
        · exact ⟨⟨h.1.1, h.1.2.1, (Except.ok.inj h.1.2.2).symm⟩, h.2⟩
        · exact ⟨⟨h.1.1, h.1.2.1.1.1, .inr (.inr ⟨h.1.2.1.2, hread _ h.1.2.1.1, h.1.2.2⟩)⟩, h.2⟩

end unix

/-! ## Whole runs -/

/-- The run of `copy` from the beginning. -/
def copied (c : Copier β UnixHost HostPath) (src : Loc) (srcPath : Text) (dest : HostPath) (s : FsState β)
    (host : UnixHost) : Work UnixHost := (Result.state (c.copy src srcPath dest (s, Work.start host))).2

section runs

variable {c : Copier β UnixHost HostPath} {host : UnixHost} {dest : HostPath} (hc : c.host = unixHost)
  (hp : c.platform.windows = false) (hforce : c.opts.force = false) (src : Loc) (srcPath : Text)
  (hdest : Named dest) (s : FsState β) (hfree : TemporariesFree (c.copied src srcPath dest s host).log)

include hc hp hforce hdest hfree

theorem copied_stands (hg : Ground S host) (hplace : (∀ n, S n) ∨ Sited S dest host) :
    Within S host (c.copied src srcPath dest s host).host ∧
      c.Delivered s (c.copied src srcPath dest s host) ∧
      (Result.value (c.copy src srcPath dest (s, Work.start host)) = .ok () →
        c.StartThere s src srcPath dest (c.copied src srcPath dest s host)) := by
  have hstart : c.Standing s (fun w => Within S host w.host) (s, Work.start host) :=
    .inr ⟨⟨.refl, Within.refl _ _⟩, fun _ _ _ _ he => absurd he List.not_mem_nil⟩
  have h := copy_stands hc hp hforce (stable_within hg) src srcPath hdest
    (fun w hw => hplace.imp_right fun hs => hs.within hw) (s, Work.start host) hstart
  unfold copied at hfree ⊢
  cases hrun : c.copy src srcPath dest (s, Work.start host) with
  | ok u t =>
    rw [hrun] at h hfree
    obtain ⟨⟨-, hw, hstart⟩, hd⟩ := h.resolve_left fun hspoilt => hspoilt hfree
    exact ⟨hw, hd, fun _ => hstart⟩
  | error e t =>
    rw [hrun] at h hfree
    obtain ⟨⟨-, hw⟩, hd⟩ := h.resolve_left fun hspoilt => hspoilt hfree
    exact ⟨hw, hd, nofun⟩

end runs

/-- What stood on the host, and has not changed. -/
structure Spared (b h : UnixHost) : Prop where
  found : ∀ path n, b.find path = some n → h.find path = some n
  followed : ∀ path n, b.walk path = some n → h.walk path = some n
  nodes : ∀ n v, b.files.node n = some v → b.files.isDir n = false → h.files.node n = some v
  dirs : ∀ d, b.files.isDir d = true → h.files.isDir d = true

/-- Only `d` was acted on, of what was there. -/
structure Contained (d : Nat) (b h : UnixHost) : Prop where
  acted : ∀ n ∈ h.acted, n = d ∨ b.files.size ≤ n
  nodes : ∀ n v, b.files.node n = some v → n ≠ d → h.files.node n = some v

/-- An empty directory, and what is new. -/
theorem ground_empty {host : UnixHost} (hcwd : host.isDir [] = true) {d : Nat}
    (hempty : ∀ x, host.files.lookup d x = none) : Ground (fun n => n = d ∨ host.files.size ≤ n) host := by
  refine ⟨fun _ hn => .inr hn, fun d' x n hd' hl => ?_, hcwd⟩
  rcases hd' with rfl | hd'
  · rw [hempty] at hl
    cases hl
  · rw [lookup_of_size_le hd'] at hl
    cases hl

theorem contained_of_within {host h : UnixHost} {d : Nat}
    (hw : Within (fun n => n = d ∨ host.files.size ≤ n) host h) (hacted : host.acted = []) :
    Contained d host h := by
  refine ⟨fun n hn => ?_, fun n v hv hn => ?_⟩
  · refine (hw.acted n hn).resolve_left ?_
    rw [hacted]
    exact List.not_mem_nil
  · refine hw.grows.same n v hv (.inl fun hS => ?_)
    rcases hS with rfl | hS
    · exact hn rfl
    · exact absurd hS (by have := FileTree.Tree.size_of_node hv; omega)

end Copier

namespace Image

/-- Two entries of one directory: a file of two bytes, `y`, and `x`, that is of `mode` and
holds `../g`. -/
def twoNamed (x y : Bytes) (mode ftype : Nat) : List (Key × Bytes) :=
  [(⟨ROOT_DIR, INODE_ITEM_KEY, 0⟩, inodeItem 0 0o40755),
    (⟨ROOT_DIR, DIR_INDEX_KEY, 2⟩, dirItem 257 ftype x),
    (⟨ROOT_DIR, DIR_INDEX_KEY, 3⟩, dirItem 258 1 y),
    (⟨257, INODE_ITEM_KEY, 0⟩, inodeItem 4 mode),
    (⟨257, EXTENT_DATA_KEY, 0⟩, inlineExtent 4 0 [0x2e, 0x2e, 0x2f, 0x67]),
    (⟨258, INODE_ITEM_KEY, 0⟩, inodeItem 2 0o100644),
    (⟨258, EXTENT_DATA_KEY, 0⟩, inlineExtent 2 0 [0x68, 0x69])]

def unixCopier : Copier Unit UnixHost HostPath where
  fs := fs []
  host := unixHost
  opts := oneFileCopier.opts
  platform := ⟨false⟩
  unicode := oneFileCopier.unicode

/-- A host on which `g` is a file of one byte, and `d` an empty directory. -/
def shelf (faults : Nat → Option Fault) : UnixHost where
  files := ⟨[⟨.dir 0 fun x => if x = ['g'] then some 1 else if x = ['d'] then some 2 else none, none, none⟩,
    ⟨.file [0x21], none, none⟩, newDir 0]⟩
  cwd := 0
  opened := none
  manifest := []
  calls := 0
  faults
  acted := []

/-- What is copied of such a directory to `d`. -/
def twoCopied (x y : Bytes) (mode ftype : Nat) (faults : Nat → Option Fault) : Work UnixHost :=
  unixCopier.copied ⟨FS_TREE_OBJECTID, ROOT_DIR⟩ ['/'] [['d']]
    (cachedLeaves (volumeLeaves (twoNamed x y mode ftype)) ()) (shelf faults)

/-- The temporary name of a file whose name is no text. -/
def lossyPartial : Bytes := [0xef, 0xbf, 0xbd] ++ Utf8.toUtf8 ".btrfs-peek-partial".toList

/-- The fourth call fails. -/
def fourth : Nat → Option Fault := fun k => if k = 3 then some ⟨noEntry, 1⟩ else none

end Image

open Image in
/-- A link of the image's own is written through, to a file outside of what is copied to: its
name is the temporary name of a file that is renamed. -/
theorem Copier.copy_escapes :
    ((twoCopied lossyPartial [0xff] 0o120777 7 fun _ => none).log.all CopyEvent.temporaryFree = false) ∧
    fileData (shelf fun _ => none).files 1 = [0x21] ∧
    fileData (twoCopied lossyPartial [0xff] 0o120777 7 fun _ => none).host.files 1 = [0x68, 0x69] := by
  decide +kernel

namespace Image

theorem temporariesFree_two : TemporariesFree (twoCopied [0x61] [0x62] 0o100644 1 fourth).log := by
  have hall : (twoCopied [0x61] [0x62] 0o100644 1 fourth).log.all CopyEvent.temporaryFree = true := by
    decide +kernel
  exact List.all_eq_true.mp hall

theorem named_d : Named [['d']] := ⟨[], ['d'], rfl, by decide, by decide, by decide, by decide⟩

end Image

end BtrfsPeek
