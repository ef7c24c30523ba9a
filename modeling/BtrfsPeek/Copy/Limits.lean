import BtrfsPeek.Copy.Calls

/-!
# How long the names are

On a Unix host a regular file is first written under its name with
`.btrfs-peek-partial` after it. The names are followed from the directory entry to
what the host is given (`fits_iff`).
-/

namespace BtrfsPeek

open Effect

variable {β η φ : Type}

/-! ## Components -/

namespace HostPath

variable {p : Platform} {t : Text}

/-- A name that nothing parts is one component. -/
theorem components_single (hsep : ∀ ch ∈ t, isSep p ch = false) (hne : t ≠ []) (hdot : t ≠ ['.']) :
    components p t = [t] := by
  have hsplit : t.splitOnP (isSep p) = [t] := by
    rw [List.splitOnP_eq_singleton]
    intro ch hch
    simp [hsep ch hch]
  rw [components, hsplit]
  simp [hne, hdot]

theorem join_single (base : HostPath) (hsep : ∀ ch ∈ t, isSep p ch = false) (hne : t ≠ [])
    (hdot : t ≠ ['.']) : join p base t = base ++ [t] := by
  have hhead : t.head?.any (isSep p) = false := by
    cases t with
    | nil => rfl
    | cons ch t => exact hsep ch List.mem_cons_self
  rw [join, hhead, components_single hsep hne hdot]
  rfl

end HostPath

theorem SafeName.isSep {p : Platform} {t : Text} (h : SafeName p t) :
    ∀ ch ∈ t, HostPath.isSep p ch = false := by
  intro ch hch
  have hslash : ch ≠ '/' := fun he => h.slash (he ▸ hch)
  have hback : ch ≠ '\\' := fun he => h.backslash (he ▸ hch)
  simp [HostPath.isSep, hslash, hback]

theorem SafeName.ne_dot {p : Platform} {t : Text} (h : SafeName p t) : t ≠ ['.'] := by
  rintro rfl
  obtain ⟨ch, hch, hne⟩ := h.dots
  exact hne (List.mem_singleton.mp hch)

theorem SafeName.ne_dots {p : Platform} {t : Text} (h : SafeName p t) : t ≠ ['.', '.'] := by
  rintro rfl
  obtain ⟨ch, hch, hne⟩ := h.dots
  simp at hch
  exact hne hch

/-- What is joined to a directory is in it, so that nothing is refused. -/
theorem SafeName.join {p : Platform} {t : Text} (h : SafeName p t) (base : HostPath) :
    base.join p t = base ++ [t] := HostPath.join_single base h.isSep h.nonempty h.ne_dot

/-- The temporary file is beside the file. -/
theorem SafeName.withFileName {t : Text} {p : Platform} (h : SafeName p t) (base : HostPath) :
    (base ++ [t]).withFileName p (partialName (base ++ [t])) =
      base ++ [t ++ ".btrfs-peek-partial".toList] := by
  have hname : (base ++ [t]).fileName = some t := by
    simp [HostPath.fileName, h.ne_dots]
  have hsuffix : ∀ ch ∈ ".btrfs-peek-partial".toList, HostPath.isSep p ch = false := by
    intro ch hch
    have hall : ∀ ch ∈ ".btrfs-peek-partial".toList, ch ≠ '/' ∧ ch ≠ '\\' := by simp
    simp [HostPath.isSep, (hall ch hch).1, (hall ch hch).2]
  rw [HostPath.withFileName, hname, partialName, hname, if_pos (show (some t).isSome = true from rfl),
    List.dropLast_concat]
  refine HostPath.join_single base ?_ ?_ ?_
  · intro ch hch
    rcases List.mem_append.mp hch with hch | hch
    · exact h.isSep ch hch
    · exact hsuffix ch hch
  · simp
  · intro he
    have hlen := congrArg List.length he
    simp at hlen

/-! ## Bytes -/

/-- How many bytes a component is. -/
def nameBytes (t : Text) : Nat := (Utf8.toUtf8 t).length

@[simp] theorem nameBytes_append (t u : Text) : nameBytes (t ++ u) = nameBytes t + nameBytes u := by
  simp [nameBytes, Utf8.toUtf8]

@[simp] theorem nameBytes_nil : nameBytes [] = 0 := rfl

theorem nameBytes_cons (ch : Char) (t : Text) : nameBytes (ch :: t) = nameBytes [ch] + nameBytes t := by
  simp [nameBytes, Utf8.toUtf8]

theorem nameBytes_ascii {ch : Char} (h : ch.toNat < 128) : nameBytes [ch] = 1 := by
  simp [nameBytes, Utf8.toUtf8, Utf8.encode, h]

/-- Every character that becomes `_` on Unix is of one byte. -/
theorem nameBytes_hostChar {p : Platform} (hp : p.windows = false) (ch : Char) :
    nameBytes [hostChar p ch] = nameBytes [ch] := by
  unfold hostChar
  split_ifs with h
  · rw [hp] at h
    have hlt : ch.toNat < 128 := by
      simp only [Bool.false_and, Bool.or_false, Bool.or_eq_true, decide_eq_true_eq] at h
      rcases h with (rfl | rfl) | h
      · decide
      · decide
      · exact Nat.lt_trans h (by decide)
    rw [nameBytes_ascii hlt]
    rfl
  · rfl

theorem nameBytes_map_hostChar {p : Platform} (hp : p.windows = false) (t : Text) :
    nameBytes (t.map (hostChar p)) = nameBytes t := by
  induction t with
  | nil => rfl
  | cons ch t ih => rw [List.map_cons, nameBytes_cons, nameBytes_hostChar hp, ih, ← nameBytes_cons]

theorem hostChar_eq_dot (p : Platform) (ch : Char) : hostChar p ch = '.' ↔ ch = '.' := by
  unfold hostChar
  split_ifs with h
  · constructor
    · intro he
      exact absurd he (by decide)
    · rintro rfl
      simp [windowsIllegal] at h
  · exact Iff.rfl

/-- A name of only dots gets one more byte, every other keeps its length. -/
theorem nameBytes_hostName {p : Platform} (hp : p.windows = false) (t : Text) :
    nameBytes (hostName p t) = nameBytes t + if t.all (· = '.') then 1 else 0 := by
  have hall : (t.map (hostChar p)).all (· = '.') = t.all (· = '.') := by
    rw [List.all_map]
    congr 1
    funext ch
    simp [hostChar_eq_dot]
  have hdots : t.map (hostChar p) = [] ∨ t.all (· = '.') = true ↔ t.all (· = '.') = true := by
    constructor
    · rintro (hnil | h)
      · rw [List.map_eq_nil_iff.mp hnil]
        rfl
      · exact h
    · exact .inr
  rw [hostName_eq, hp, if_neg Bool.false_ne_true, guardDots, hall]
  by_cases h : t.all (· = '.') = true
  · rw [if_pos (hdots.mpr h), if_pos h, nameBytes_cons, nameBytes_map_hostChar hp]
    exact Nat.add_comm _ _
  · rw [if_neg (mt hdots.mp h), if_neg h, nameBytes_map_hostChar hp, Nat.add_zero]

/-- How many bytes a number takes with its `~`. -/
def numberBytes (n : Nat) : Nat := if n = 0 then 0 else 1 + (toString n).length

theorem nameBytes_digits {t : Text} (h : ∀ ch ∈ t, ch.isDigit = true) : nameBytes t = t.length := by
  induction t with
  | nil => rfl
  | cons ch t ih =>
    have hall : ∀ ch ∈ "0123456789".toList, ch.toNat < 128 := by simp
    rw [nameBytes_cons, nameBytes_ascii (hall ch (mem_digits (h ch List.mem_cons_self))),
      ih fun ch hch => h ch (List.mem_cons_of_mem _ hch), List.length_cons, Nat.add_comm]

theorem nameBytes_candidate (base : Text) (n : Nat) :
    nameBytes (candidate base n) = nameBytes base + numberBytes n := by
  cases n with
  | zero => rfl
  | succ n =>
    have hdigits := nameBytes_digits (digits_toString (n + 1))
    rw [candidate, nameBytes_append, nameBytes_cons, hdigits, numberBytes, if_neg (Nat.succ_ne_zero n),
      nameBytes_ascii (by decide), String.length_toList]

/-! ## What the host is given -/

/-- A call that notes the paths it is made with. -/
def noted {α : Type} (paths : List HostPath) (x : HostOp η α) : HostOp (η × List HostPath) α := fun h =>
  done (Result.value (x h.1)) (Result.state (x h.1), h.2 ++ paths)

/-- The same host, which notes the paths it is given. -/
def HostFs.traced (H : HostFs η φ) : HostFs (η × List HostPath) φ where
  isDir path := noted [path] (H.isDir path)
  symlinkMetadata path := noted [path] (H.symlinkMetadata path)
  createDirAll path := noted [path] (H.createDirAll path)
  removeFile path := noted [path] (H.removeFile path)
  symlink kind target path := noted [path] (H.symlink kind target path)
  rename source dest := noted [source, dest] (H.rename source dest)
  setFileMtime path sec nsec := noted [path] (H.setFileMtime path sec nsec)
  create path := noted [path] (H.create path)
  writeAll f d := noted [] (H.writeAll f d)
  seek f n := noted [] (H.seek f n)
  setLen f n := noted [] (H.setLen f n)
  setPermissions f mode := noted [] (H.setPermissions f mode)
  syncAll f := noted [] (H.syncAll f)
  manifestLine line := noted [] (H.manifestLine line)
  manifestNewline := noted [] H.manifestNewline

/-- The paths that the host was given. -/
def Work.paths (w : Work (η × List HostPath)) : List HostPath := w.host.2

theorem hostCall_noted {α : Type} {wrap : OsError → Error} {x : HostOp η α} {ps : List HostPath}
    (w : Work (η × List HostPath)) :
    (Result.state (hostCall wrap (noted ps x) w)).paths = w.paths ++ ps := by
  unfold hostCall noted
  cases x w.host.1 <;> rfl

/-- A call notes no paths but its own. -/
theorem HostFs.Call.paths {H : HostFs η φ} {allowed : HostPath → Prop} {α : Type}
    {op : HostOp (η × List HostPath) α} (h : H.traced.Call allowed op) :
    ∃ ps : List HostPath, (∀ path ∈ ps, allowed path) ∧ ∃ x : HostOp η α, op = noted ps x := by
  cases h with
  | rename h h' => exact ⟨[_, _], by simp [h, h'], _, rfl⟩
  | symlinkMetadata h | createDirAll h | removeFile h | symlink h | setFileMtime h | create h =>
    exact ⟨[_], by simp [h], _, rfl⟩
  | writeAll | seek | setLen | setPermissions | syncAll | manifestLine | manifestNewline =>
    exact ⟨[], by simp, _, rfl⟩

namespace Copier

variable {H : HostFs η φ} {c : Copier β (η × List HostPath) φ} (hc : c.host = H.traced)

include hc

theorem respects_paths (allowed : HostPath → Prop) :
    c.Respects allowed fun w => ∀ path ∈ w.paths, allowed path where
  report _ _ _ h := h
  call wrap h := by
    rw [hc] at h
    obtain ⟨ps, hps, x, rfl⟩ := h.paths
    refine Ensures.of_state fun w hw => ?_
    rw [hostCall_noted]
    intro path hpath
    rcases List.mem_append.mp hpath with hpath | hpath
    · exact hw path hpath
    · exact hps path hpath

/-- A path that was noted stays. -/
theorem respects_noted (path : HostPath) : c.Respects (fun _ => True) fun w => path ∈ w.paths where
  report _ _ _ h := h
  call wrap h := by
    rw [hc] at h
    obtain ⟨ps, -, x, rfl⟩ := h.paths
    refine Ensures.of_state fun w hw => ?_
    rw [hostCall_noted]
    exact List.mem_append_left _ hw

/-- Only the file and its temporary file are named to the host. -/
theorem paths_copyLeaf (loc : Loc) (src : Text) (dest : HostPath) {s : FsState β}
    {w : Work (η × List HostPath)} (hw : w.paths = []) :
    ∀ path ∈ (Result.state (c.copyLeaf loc src dest (s, w))).2.paths,
      path = dest ∨ path = dest.withFileName c.platform (partialName dest) := by
  have hQ := respects_paths hc fun path =>
    path = dest ∨ path = dest.withFileName c.platform (partialName dest)
  refine (copyLeaf_keeps hQ loc src (fun w h => h) (.inl rfl) (.inr rfl)).state ?_
  intro path hpath
  rw [show (s, w).2.paths = [] from hw] at hpath
  exact absurd hpath List.not_mem_nil

theorem noted_writeFile (loc : Loc) (i : Inode) (tmp : HostPath) :
    Ensures (fun _ => True) (c.writeFile loc i tmp) (fun _ s => tmp ∈ s.2.paths)
      (fun _ s => tmp ∈ s.2.paths) := by
  have hQ := respects_noted hc tmp
  refine Ensures.bind (Q := fun _ s => tmp ∈ s.2.paths) (Ensures.of_state fun s _ => ?_) fun file =>
    fillFile_keeps hQ loc i tmp file
  rw [hc]
  show tmp ∈ (Result.state (onSnd (hostCall _ (noted [tmp] (H.create tmp))) s)).2.paths
  rw [onSnd, state_done, hostCall_noted]
  simp

/-- The temporary file is the first that copying a file names to the host. -/
theorem noted_copyFile (loc : Loc) (i : Inode) (src : Text) (dest : HostPath) :
    Ensures (fun _ => True) (c.copyFile loc i src dest)
      (fun _ s => dest.withFileName c.platform (partialName dest) ∈ s.2.paths)
      (fun _ s => dest.withFileName c.platform (partialName dest) ∈ s.2.paths) := by
  have hQ := respects_noted hc (dest.withFileName c.platform (partialName dest))
  refine Ensures.bind (noted_writeFile hc loc i _).attempt fun r => ?_
  refine (settleFile_keeps hQ loc i src trivial trivial r).mono ?_ (fun _ _ h => h) fun _ _ h => h
  intro s hs
  cases r <;> exact hs

end Copier

namespace Copier

/-- The copier's own state when it has noted what it copies. -/
def noteLeaf (loc : Loc) (dest : HostPath) (w : Work η) : Work η :=
  { w with log := w.log ++ [.leaf loc dest w.host] }

/-- What is at `loc` is a regular file, and nothing stays in its way at `dest`. -/
def Ready (c : Copier β η φ) (loc : Loc) (dest : HostPath) (s : FsState β × Work η) : Prop :=
  ∃ i s₁ st, c.fs.inode loc s.1 = .ok i s₁ ∧ i.isFile = true ∧
    c.makeWay dest (s₁, noteLeaf loc dest s.2) = .ok () st

theorem Ready.copyLeaf_eq {c : Copier β η φ} {loc : Loc} {dest : HostPath} {s : FsState β × Work η}
    (h : c.Ready loc dest s) (src : Text) :
    ∃ i st, c.copyLeaf loc src dest s = c.copyFile loc i src dest st := by
  obtain ⟨i, s₁, st, hi, hfile, hway⟩ := h
  have hrun : c.copyLeaf loc src dest s = (do
      c.makeWay dest
      if i.isSymlink then c.copySymlink loc src dest
      else if i.isFile = false then warn s!"{String.ofList src}: skipped {i.typeName}"
      else c.copyFile loc i src dest : CopyM β η Unit) (s₁, noteLeaf loc dest s.2) :=
    bind_of_ok (onFst_of_ok hi (noteLeaf loc dest s.2))
  refine ⟨i, st, ?_⟩
  rw [hrun, bind_of_ok hway, Inode.not_isSymlink_of_isFile hfile, hfile]
  rfl

/-- No component that the host is given for what is copied to `dest` is of more than 255
bytes. -/
def Fits (c : Copier β (η × List HostPath) φ) (loc : Loc) (src : Text) (dest : HostPath)
    (s : FsState β × Work (η × List HostPath)) : Prop :=
  ∀ path ∈ (Result.state (c.copyLeaf loc src dest s)).2.paths, ∀ last ∈ path.getLast?,
    nameBytes last ≤ 255

/-- A file whose name is safe fits if the name of its temporary file does. -/
theorem fits_iff {H : HostFs η φ} {c : Copier β (η × List HostPath) φ} (hc : c.host = H.traced)
    {t : Text} (ht : SafeName c.platform t) {loc : Loc} {base : HostPath} (src : Text)
    {s : FsState β × Work (η × List HostPath)} (hs : s.2.paths = []) (h : c.Ready loc (base ++ [t]) s) :
    c.Fits loc src (base ++ [t]) s ↔ nameBytes t + 19 ≤ 255 := by
  have htmp : nameBytes (t ++ ".btrfs-peek-partial".toList) = nameBytes t + 19 := by
    rw [nameBytes_append]
    rfl
  have hpaths := paths_copyLeaf hc loc src (base ++ [t]) (s := s.1) hs
  obtain ⟨i, st, hrun⟩ := h.copyLeaf_eq src
  have hmem := (noted_copyFile hc loc i src (base ++ [t])).state (s := st) trivial
  rw [← hrun] at hmem
  rw [ht.withFileName] at hpaths hmem
  constructor
  · intro hfits
    have hle := hfits _ hmem (t ++ ".btrfs-peek-partial".toList) (by simp)
    rwa [htmp] at hle
  · intro hle path hpath last hlast
    rcases hpaths path hpath with rfl | rfl
    · obtain rfl : t = last := by simpa using hlast
      omega
    · obtain rfl : t ++ ".btrfs-peek-partial".toList = last := by simpa using hlast
      rwa [htmp]

end Copier

/-- A file whose temporary file the host does not create is not copied. -/
theorem Copier.value_copyFile_of_create {c : Copier β η φ} {loc : Loc} {i : Inode} {src : Text}
    {dest : HostPath} {e : OsError} {st : FsState β × Work η}
    (h : ∀ k, ∃ k', c.host.create (dest.withFileName c.platform (partialName dest)) k = .error e k') :
    ∃ text, Result.value (c.copyFile loc i src dest st) = .error (.context text (.io (e.at .host))) := by
  obtain ⟨k', hcreate⟩ := h st.2.host
  have hwrite : c.writeFile loc i (dest.withFileName c.platform (partialName dest)) st =
      .error (.context s!"creating {(dest.withFileName c.platform (partialName dest)).display}"
        (hostError e)) (st.1, { st.2 with host := k' }) := by
    apply bind_of_error
    unfold onSnd hostCall
    rw [hcreate]
    rfl
  have hvalue : Result.value (c.copyFile loc i src dest st) = Result.value (c.writeFile loc i
      (dest.withFileName c.platform (partialName dest)) st) := by
    have hattempt := attempt_run (c.writeFile loc i
      (dest.withFileName c.platform (partialName dest))) st
    rw [hwrite] at hattempt
    rw [hwrite]
    exact (congrArg Result.value (bind_of_ok hattempt)).trans rfl
  rw [hvalue, hwrite]
  exact ⟨_, rfl⟩

/-- The bytes of an entry's name on a Unix host, if `n` candidates for it were taken. -/
def hostBytes (e : Entry) (n : Nat) : Nat :=
  e.name.length + (if e.nameLossy.all (· = '.') then 1 else 0) + numberBytes n

theorem nameBytes_candidate_of_text {p : Platform} (hp : p.windows = false) {e : Entry} {t : Text}
    (ht : e.name = Utf8.toUtf8 t) (n : Nat) :
    nameBytes (candidate (hostName p e.nameLossy) n) = hostBytes e n := by
  have hlossy : e.nameLossy = t := by rw [Entry.nameLossy, ht, Utf8.fromUtf8Lossy_toUtf8]
  rw [nameBytes_candidate, nameBytes_hostName hp, hostBytes, hlossy, ht]
  rfl

/-- A name that btrfs allows and that is text. -/
structure LegalText (b : Bytes) (t : Text) : Prop where
  text : b = Utf8.toUtf8 t
  slash : '/' ∉ t
  nul : Char.ofNat 0 ∉ t
  length : 1 ≤ b.length ∧ b.length ≤ 255

/-- Of a directory of legal names copied onto a Unix host, at the turn of an entry that
finds `n` candidates for its name taken: while a regular file is copied whose name there is
of at most 255 bytes, the host is given no longer component exactly if that name is of at
most 236, which leaves room for `.btrfs-peek-partial`. -/
theorem Copier.fits_of_short_iff {H : HostFs η φ} {c : Copier β (η × List HostPath) φ}
    (hc : c.host = H.traced) (hp : c.platform.windows = false) (rel : Text) {es : List Entry}
    (hes : ∀ e ∈ es, ∃ t, LegalText e.name t) :
    ∀ before e after, es = before ++ e :: after → c.excludes rel e.nameLossy = false →
    ∃ n, (∀ m < n, c.fold (candidate (hostName c.platform e.nameLossy) m) ∈ c.takenBy rel before) ∧
      c.fold (candidate (hostName c.platform e.nameLossy) n) ∉ c.takenBy rel before ∧
      ∃ t, c.chosenName (c.takenBy rel before) e = t ∧ nameBytes t = hostBytes e n ∧
        ∀ (base : HostPath) (src : Text) (s : FsState β × Work (η × List HostPath)),
          s.2.paths = [] → c.Ready e.loc (base.join c.platform t) s →
          ((nameBytes t ≤ 255 → c.Fits e.loc src (base.join c.platform t) s) ↔
            hostBytes e n ≤ 236 ∨ 255 < hostBytes e n) := by
  rintro before e after rfl he
  have hU : c.platform.windows = true → c.unicode.Ascii := fun hw => by simp [hp] at hw
  obtain ⟨text, hlegal⟩ := hes e (List.mem_append_right _ List.mem_cons_self)
  obtain ⟨n, -, hn, hfree, htaken⟩ := chosenName_spec hU (c.takenBy rel before) e
  have hbytes : nameBytes (c.chosenName (c.takenBy rel before) e) = hostBytes e n := by
    rw [hn, nameBytes_candidate_of_text hp hlegal.text]
  have hsafe := safeName_chosenName (c := c) (c.takenBy rel before) e
  refine ⟨n, htaken, hfree, _, rfl, hbytes, ?_⟩
  intro base src s hs hready
  rw [hsafe.join] at hready ⊢
  rw [fits_iff hc hsafe src hs hready, hbytes]
  omega

namespace Image

/-- The copier of one file onto a host that notes its paths and whose components are of at
most 255 bytes. -/
def limitedHost : HostFs (Bytes × Nat) HostPath :=
  { oneFileHost with
    create := fun path h =>
      if path.all fun t => nameBytes t ≤ 255 then oneFileHost.create path h
      else .error ⟨.other, "File name too long"⟩ h }

def limitedCopier : Copier Unit ((Bytes × Nat) × List HostPath) HostPath :=
  { fs := fs [], host := limitedHost.traced, opts := oneFileCopier.opts, platform := ⟨false⟩,
    unicode := oneFileCopier.unicode }

/-- The file is called `n` times `a`. -/
def namedFile (n : Nat) : Entry := ⟨List.replicate n 0x61, ⟨FS_TREE_OBJECTID, 257⟩, 1, false⟩

def limitedState : FsState Unit × Work ((Bytes × Nat) × List HostPath) :=
  (holedState, Work.start (([], 0), []))

theorem toUtf8_replicate (n : Nat) :
    List.replicate n 0x61 = Utf8.toUtf8 (List.replicate n 'a') := by
  induction n with
  | zero => rfl
  | succ n ih => rw [List.replicate_succ, List.replicate_succ, ih]; rfl

theorem legalText_namedFile {n : Nat} (h : 1 ≤ n ∧ n ≤ 255) :
    LegalText (namedFile n).name (List.replicate n 'a') where
  text := toUtf8_replicate n
  slash hin := absurd (List.eq_of_mem_replicate hin) (by decide)
  nul hin := absurd (List.eq_of_mem_replicate hin) (by decide)
  length := by rwa [namedFile, List.length_replicate]

theorem nameLossy_namedFile (n : Nat) : (namedFile n).nameLossy = List.replicate n 'a' := by
  rw [Entry.nameLossy, namedFile, toUtf8_replicate, Utf8.fromUtf8Lossy_toUtf8]

theorem hostBytes_namedFile (n : Nat) (h : 0 < n) : hostBytes (namedFile n) 0 = n := by
  obtain ⟨n, rfl⟩ := Nat.exists_eq_succ_of_ne_zero h.ne'
  rw [hostBytes, nameLossy_namedFile, List.replicate_succ]
  simp [namedFile, numberBytes]

theorem ready_limited (dest : HostPath) :
    limitedCopier.Ready ⟨FS_TREE_OBJECTID, 257⟩ dest limitedState := by
  have hinode : Result.passes (fun i _ => i.isFile)
      (limitedCopier.fs.inode ⟨FS_TREE_OBJECTID, 257⟩ holedState) = true := by decide +kernel
  obtain ⟨i, s₁, hi, hfile⟩ := Result.exists_of_passes hinode
  exact ⟨i, s₁, _, hi, hfile, rfl⟩

/-- A file with a short name. -/
theorem fits_of_short_iff_one :
    limitedCopier.Fits ⟨FS_TREE_OBJECTID, 257⟩ ['f'] [['o', 'u', 't'], ['a']] limitedState := by
  have hlegal : ∀ e ∈ [namedFile 1], ∃ t, LegalText e.name t := by
    intro e he
    obtain rfl := List.mem_singleton.mp he
    exact ⟨_, legalText_namedFile (by decide)⟩
  obtain ⟨n, htaken, -, t, ht, hbytes, hfits⟩ :=
    Copier.fits_of_short_iff (c := limitedCopier) (H := limitedHost) rfl rfl [] hlegal [] (namedFile 1) []
      rfl rfl
  -- No name is taken, so that the first candidate is free.
  obtain rfl : n = 0 := by
    by_contra hne
    exact absurd (htaken 0 (Nat.pos_of_ne_zero hne)) List.not_mem_nil
  rw [hostBytes_namedFile 1 Nat.one_pos] at hbytes hfits
  obtain rfl : ['a'] = t := by
    rw [← ht]
    decide +kernel
  exact (hfits [['o', 'u', 't']] ['f'] limitedState rfl (ready_limited _)).mpr (.inl (by decide))
    (by decide)

theorem chosenName_namedFile : limitedCopier.chosenName [] (namedFile 237) = List.replicate 237 'a' := by
  have hmem {ch : Char} (h : ch ∈ List.replicate 237 'a') : ch = 'a' := List.eq_of_mem_replicate h
  have hsafe : SafeName limitedCopier.platform (namedFile 237).nameLossy := by
    rw [nameLossy_namedFile]
    have hwin : ¬ limitedCopier.platform.windows = true := by decide
    exact ⟨by decide, fun h => absurd (hmem h) (by decide), fun h => absurd (hmem h) (by decide),
      fun ch h => by rw [hmem h]; decide, ⟨'a', by decide, by decide⟩, fun h => absurd h hwin,
      fun h => absurd h hwin, fun h => absurd h hwin⟩
  rw [Copier.chosenName_of_safe hsafe List.not_mem_nil, nameLossy_namedFile]

theorem create_limited {base : HostPath} {t : Text} (h : 255 < nameBytes t)
    (k : (Bytes × Nat) × List HostPath) : limitedCopier.host.create (base ++ [t]) k =
      .error ⟨.other, "File name too long"⟩ (k.1, k.2 ++ [base ++ [t]]) := by
  have hlong : (base ++ [t]).all (fun t => nameBytes t ≤ 255) = false := by
    simp [h]
  show noted [base ++ [t]] (limitedHost.create (base ++ [t])) k = _
  unfold noted limitedHost
  dsimp only
  rw [hlong]
  rfl

/-- A file whose legal name leaves too little room cannot be copied to a host that could
hold it. -/
theorem temporary_too_long : LegalText (namedFile 237).name (List.replicate 237 'a') ∧
    limitedCopier.chosenName [] (namedFile 237) = List.replicate 237 'a' ∧
    nameBytes (List.replicate 237 'a') = 237 ∧
    (∃ text, Result.value (limitedCopier.copyLeaf ⟨FS_TREE_OBJECTID, 257⟩ ['f']
      [List.replicate 237 'a'] limitedState) =
        .error (.context text (.io (OsError.at ⟨.other, "File name too long"⟩ .host)))) ∧
    ¬ limitedCopier.Fits ⟨FS_TREE_OBJECTID, 257⟩ ['f'] [List.replicate 237 'a'] limitedState := by
  have hbytes : nameBytes (List.replicate 237 'a') = 237 := by
    rw [nameBytes, ← toUtf8_replicate, List.length_replicate]
  have hsafe : SafeName limitedCopier.platform (List.replicate 237 'a') := by
    rw [← chosenName_namedFile]
    exact Copier.safeName_chosenName [] (namedFile 237)
  have hready := ready_limited [List.replicate 237 'a']
  refine ⟨legalText_namedFile (by decide), chosenName_namedFile, hbytes, ?_, ?_⟩
  · obtain ⟨i, st, hrun⟩ := hready.copyLeaf_eq ['f']
    rw [hrun]
    apply Copier.value_copyFile_of_create
    rw [show [List.replicate 237 'a'] = [] ++ [List.replicate 237 'a'] from rfl, hsafe.withFileName]
    refine fun k => ⟨_, create_limited ?_ k⟩
    rw [nameBytes_append, hbytes]
    decide
  · intro hfits
    have hready' : limitedCopier.Ready ⟨FS_TREE_OBJECTID, 257⟩ ([] ++ [List.replicate 237 'a'])
      limitedState := hready
    have hle := (Copier.fits_iff (H := limitedHost) rfl hsafe ['f'] rfl hready').mp hfits
    omega

end Image

end BtrfsPeek
