import BtrfsPeek.Copy.Unix

/-!
# One entry onto a Unix host

What the calls come to that copying something to one name makes. Where nothing stands at
the temporary name, all that is changed is what the two names lead to, whatever fails
(`Copier.copyLeaf_lands`), and a file that is copied is there with what was read.
-/

namespace BtrfsPeek

open Effect SparseFile

namespace UnixHost

variable {S S' : Nat → Prop} {b h h' : UnixHost} {n m d : Nat} {x y : Text} {base path : HostPath}

/-! ## What is new -/

theorem newDir_bare (d : Nat) : (newDir d).Bare := by
  intro parent entries hb z
  cases hb
  rfl

theorem newFile_bare : newFile.Bare := by
  intro parent entries hb
  cases hb

theorem lookup_putNode {v : HostNode} (hd : h.files.isDir d = true) (hv : v.Bare) {d' : Nat} {z : Text} :
    (h.putNode d x v).files.lookup d' z =
      if d' = d ∧ z = x then some h.files.size else h.files.lookup d' z := by
  have hdir : (h.files.add v).isDir d = true := ((FileTree.Tree.Grows.refl (fun _ => True) h.files).add v).isDir hd
  show ((h.files.add v).setEntry d x _).lookup d' z = _
  rw [FileTree.Tree.lookup_setEntry _ hdir, FileTree.Tree.lookup_add hv]

theorem size_of_isDir (hd : h.files.isDir d = true) : d < h.files.size := by
  obtain ⟨parent, entries, hbody⟩ := FileTree.Tree.isDir_iff.mp hd
  obtain ⟨v, hv, -⟩ := FileTree.Tree.node_of_body hbody
  exact FileTree.Tree.size_of_node hv

theorem body_putNode {v : HostNode} (hd : h.files.isDir d = true) :
    (h.putNode d x v).files.body h.files.size = some v.body := by
  have hne : d ≠ h.files.size := Nat.ne_of_lt (size_of_isDir hd)
  show ((h.files.add v).setEntry d x _).body h.files.size = _
  rw [FileTree.Tree.body_setEntry_of_ne _ hne, FileTree.Tree.body_add, if_pos rfl]

/-! ## What is kept -/

/-- Nothing that was there is changed, but that directories of `S` have more in them, which is
new, and nothing else was acted on. -/
structure Within (S : Nat → Prop) (b h : UnixHost) : Prop where
  grows : b.files.Grows S h.files
  entries : ∀ d z n, h.files.lookup d z = some n → b.files.lookup d z = some n ∨ b.files.size ≤ n
  acted : ∀ n ∈ h.acted, n ∈ b.acted ∨ S n
  cwd : h.cwd = b.cwd

namespace Within

theorem refl (S : Nat → Prop) (h : UnixHost) : Within S h h :=
  ⟨.refl S _, fun _ _ _ hn => .inl hn, fun _ hn => .inl hn, rfl⟩

theorem trans (hw : Within S b h) (hw' : Within S h h') : Within S b h' where
  grows := hw.grows.trans hw'.grows
  entries d z n hn := by
    rcases hw'.entries d z n hn with hn | hn
    · exact hw.entries d z n hn
    · exact .inr (hw.grows.size_le.trans hn)
  acted n hn := (hw'.acted n hn).elim (hw.acted n) .inr
  cwd := hw'.cwd.trans hw.cwd

theorem mono (hw : Within S b h) (hS : ∀ n, S n → S' n) : Within S' b h :=
  ⟨hw.grows.mono fun n hn _ => hS n hn, hw.entries, fun n hn => (hw.acted n hn).imp_right (hS n), hw.cwd⟩

/-- It is all told by the files, where paths start and what was acted on. -/
theorem of_eq (hw : Within S b h) (hfiles : h'.files = h.files) (hcwd : h'.cwd = h.cwd)
    (hacted : h'.acted = h.acted) : Within S b h' :=
  ⟨hfiles ▸ hw.grows, hfiles ▸ hw.entries, hacted ▸ hw.acted, hcwd.trans hw.cwd⟩

theorem walk (hw : Within S b h) (hn : b.walk path = some n) : h.walk path = some n := by
  rw [UnixHost.walk, hw.cwd]
  exact hw.grows.walk hn

theorem find (hw : Within S b h) (hn : b.find path = some n) : h.find path = some n := by
  unfold UnixHost.find at hn ⊢
  split_ifs at hn ⊢
  rw [hw.cwd]
  exact hw.grows.find hn

theorem isDir (hw : Within S b h) (hd : b.isDir path = true) : h.isDir path = true := by
  obtain ⟨n, hn, hdir⟩ := (Option.any_eq_true _ _).mp hd
  exact (Option.any_eq_true _ _).mpr ⟨n, hw.walk hn, hw.grows.isDir hdir⟩

theorem unset (hw : Within S b h) (hd : S d) (hdir : h.files.isDir d = true)
    (hx : b.files.lookup d x = none) :
    Within S b { h with files := h.files.setEntry d x none, acted := h.acted ++ [d] } := by
  refine ⟨hw.grows.setEntry hd hx none, fun d' z n hn => ?_, fun n hn => ?_, hw.cwd⟩
  · rw [FileTree.Tree.lookup_setEntry _ hdir] at hn
    split_ifs at hn
    exact hw.entries d' z n hn
  · rcases List.mem_append.mp hn with hn | hn
    · exact hw.acted n hn
    · exact .inr (List.mem_singleton.mp hn ▸ hd)

theorem putNode (hw : Within S b h) (hd : S d) (hdir : h.files.isDir d = true)
    (hx : b.files.lookup d x = none) (hnew : S h.files.size) {v : HostNode} (hv : v.Bare) :
    Within S b (h.putNode d x v) := by
  refine ⟨(hw.grows.add v).setEntry hd hx _, fun d' z n hn => ?_, fun n hn => ?_, hw.cwd⟩
  · rw [lookup_putNode hdir hv] at hn
    split_ifs at hn
    · exact .inr (Option.some.inj hn ▸ hw.grows.size_le)
    · exact hw.entries d' z n hn
  · have hmem : n ∈ h.acted ∨ n = d ∨ n = h.files.size := by simpa [UnixHost.putNode] using hn
    rcases hmem with hn | rfl | rfl
    · exact hw.acted n hn
    · exact .inr hd
    · exact .inr hnew

/-- A node that is new may be altered, if no name is in it. -/
theorem alterNode_new (hw : Within S b h) (hn : b.files.size ≤ n) (hS : S n) {f : HostNode → HostNode}
    (hl : ∀ d z, (h.alterNode n f).files.lookup d z = h.files.lookup d z) :
    Within S b (h.alterNode n f) := by
  refine ⟨hw.grows.alter_new hn f, fun d z m hm => ?_, fun m hm => ?_, hw.cwd⟩
  · rw [hl] at hm
    exact hw.entries d z m hm
  · rcases List.mem_append.mp hm with hm | hm
    · exact hw.acted m hm
    · exact .inr (List.mem_singleton.mp hm ▸ hS)

theorem alterNode_info (hw : Within S b h) (hd : b.files.isDir n = true) (hS : S n)
    (f : FileInfo → FileInfo) : Within S b (h.alterNode n fun v => { v with info := f v.info }) := by
  refine ⟨hw.grows.alter_info hS hd f, fun d z m hm => ?_, fun m hm => ?_, hw.cwd⟩
  · have hbody : (h.files.alter n fun v => { v with info := f v.info }).body d = h.files.body d :=
      FileTree.Tree.body_alter _ fun _ _ => rfl
    refine hw.entries d z m ?_
    rw [← FileTree.Tree.lookup_congr hbody]
    exact hm
  · rcases List.mem_append.mp hm with hm | hm
    · exact hw.acted m hm
    · exact .inr (List.mem_singleton.mp hm ▸ hS)

end Within

/-! ## What the changes come to -/

theorem steps_concat (hx : x ≠ ['.', '.']) (base : HostPath) :
    steps (base ++ [x]) = steps base ++ [.name x] := by simp [steps, step, hx]

theorem spot_concat (hx : x ≠ ['.', '.']) {s : Nat × Text} :
    h.spot (base ++ [x]) = some s ↔
      h.walk base = some s.1 ∧ h.files.isDir s.1 = true ∧ s.2 = x := by
  rw [spot, steps_concat hx, FileTree.Tree.spot_concat, walk]
  cases hw : h.files.walk LINKS h.cwd (steps base) with
  | none => simp
  | some d =>
    dsimp only
    by_cases hd : h.files.isDir d = true
    · rw [if_pos hd]
      constructor
      · rintro ⟨⟩
        exact ⟨rfl, hd, rfl⟩
      · rintro ⟨hs, -, hx⟩
        rw [Option.some.inj hs, ← hx]
    · rw [if_neg hd]
      simp only [reduceCtorEq, false_iff, not_and]
      intro hs hdir
      rw [← Option.some.inj hs] at hdir
      exact absurd hdir hd

theorem find_concat (hx : x ≠ ['.', '.']) : h.find (base ++ [x]) =
    (h.spot (base ++ [x])).bind fun s => h.files.lookup s.1 s.2 := by
  rw [find, if_neg (List.append_ne_nil_of_right_ne_nil _ (List.cons_ne_nil _ _)), spot, steps_concat hx,
    FileTree.Tree.find_concat]

/-- A name is free that leads to nothing, or is in no directory. -/
theorem find_concat_none (hx : x ≠ ['.', '.']) : h.find (base ++ [x]) = none ↔
    ∀ d, h.walk base = some d → h.files.lookup d x = none := by
  rw [find_concat hx]
  constructor
  · intro hf d hd
    cases hl : h.files.lookup d x with
    | none => rfl
    | some n =>
      obtain ⟨parent, entries, hbody, -⟩ := FileTree.Tree.dir_of_lookup hl
      have hs : h.spot (base ++ [x]) = some (d, x) :=
        (spot_concat hx).mpr ⟨hd, FileTree.Tree.isDir_iff.mpr ⟨parent, entries, hbody⟩, rfl⟩
      rw [hs, Option.bind_some, hl] at hf
      cases hf
  · intro hf
    cases hs : h.spot (base ++ [x]) with
    | none => rfl
    | some s =>
      obtain ⟨hd, -, rfl⟩ := (spot_concat hx).mp hs
      exact hf _ hd

theorem make_ok {v : Nat → HostNode} (hrun : make path v h = .ok h') : ∃ d x,
    h.spot path = some (d, x) ∧ h.files.lookup d x = none ∧ h' = h.putNode d x (v d) := by
  unfold make at hrun
  cases hs : h.spot path with
  | none => simp [hs] at hrun
  | some s =>
    rw [hs] at hrun
    dsimp only at hrun
    cases hl : h.files.lookup s.1 s.2 with
    | some n => simp [hl] at hrun
    | none =>
      rw [hl] at hrun
      exact ⟨s.1, s.2, rfl, hl, (Except.ok.inj hrun).symm⟩

theorem unlink_ok (hrun : unlink path h = .ok h') : ∃ d x n,
    h.spot path = some (d, x) ∧ h.files.lookup d x = some n ∧
    h' = { h with files := h.files.setEntry d x none, acted := h.acted ++ [d] } := by
  unfold unlink at hrun
  cases hs : h.spot path with
  | none => simp [hs] at hrun
  | some s =>
    rw [hs] at hrun
    dsimp only at hrun
    cases hl : h.files.lookup s.1 s.2 with
    | none => simp [hl] at hrun
    | some n =>
      rw [hl] at hrun
      dsimp only at hrun
      split_ifs at hrun
      exact ⟨s.1, s.2, n, rfl, hl, (Except.ok.inj hrun).symm⟩

theorem move_ok {source dest : HostPath} {s s' : Nat × Text} (hs : h.spot source = some s)
    (hs' : h.spot dest = some s') (hn : h.files.lookup s.1 s.2 = some n)
    (hfree : h.files.lookup s'.1 s'.2 = none) (hrun : move source dest h = .ok h') :
    h' = { h with
      files := (h.files.setEntry s.1 s.2 none).setEntry s'.1 s'.2 (some n)
      acted := h.acted ++ [s.1, s'.1] } := by
  unfold move at hrun
  rw [hs, hs'] at hrun
  dsimp only at hrun
  rw [hn, hfree] at hrun
  dsimp only at hrun
  rw [if_neg (by simp)] at hrun
  split_ifs at hrun
  exact (Except.ok.inj hrun).symm

/-- A file is made under a name that is free. -/
theorem openNew_ok (hx : x ≠ ['.', '.']) (hfree : h.find (base ++ [x]) = none)
    (hrun : openNew (base ++ [x]) h = .ok h') : ∃ d, h.walk base = some d ∧ h.files.isDir d = true ∧
      h' = { h.putNode d x newFile with opened := some (base ++ [x], h.files.size, 0) } := by
  unfold openNew at hrun
  cases hs : h.spot (base ++ [x]) with
  | none =>
    have hplace : h.place (base ++ [x]) = none := by
      unfold place FileTree.Tree.place
      unfold spot at hs
      rw [hs]
    simp [hplace] at hrun
  | some s =>
    obtain ⟨hd, hdir, rfl⟩ := (spot_concat hx).mp hs
    have hplace : h.place (base ++ [s.2]) = some (.inr (s.1, s.2)) :=
      FileTree.Tree.place_of_free hs ((find_concat_none hx).mp hfree _ hd)
    rw [hplace] at hrun
    exact ⟨s.1, hd, hdir, (Except.ok.inj hrun).symm⟩

theorem touch_ok {sec : Int} {nsec : Nat} (hrun : touch path sec nsec h = .ok h') : ∃ n,
    h.walk path = some n ∧
    h' = h.alterNode n fun v => { v with info := { v.info with mtime := some (sec, nsec) } } := by
  unfold touch at hrun
  cases hw : h.walk path with
  | none => simp [hw] at hrun
  | some n =>
    rw [hw] at hrun
    dsimp only at hrun
    split_ifs at hrun
    exact ⟨n, rfl, (Except.ok.inj hrun).symm⟩

theorem chmodOpen_ok {mode : Nat} (hrun : chmodOpen path mode h = .ok h') : ∃ n pos,
    h.opened = some (path, n, pos) ∧
    h' = h.alterNode n fun v => { v with info := { v.info with mode := some mode } } := by
  unfold chmodOpen at hrun
  cases ho : h.opened with
  | none => simp [ho] at hrun
  | some o =>
    rw [ho] at hrun
    dsimp only at hrun
    split_ifs at hrun with hp
    subst hp
    exact ⟨o.2.1, o.2.2, rfl, (Except.ok.inj hrun).symm⟩

/-! ## The two names -/

/-- Where something is copied to: `x` in the directory at `base`, with `y` for the
temporary name, which is free. -/
structure Site (S : Nat → Prop) (base : HostPath) (x y : Text) (b : UnixHost) : Prop where
  plain : x ≠ ['.', '.'] ∧ y ≠ ['.', '.']
  ne : x ≠ y
  /-- What is new may be changed, and so may the directory. -/
  new : ∀ n, b.files.size ≤ n → S n
  dir : ∀ d, b.walk base = some d → S d
  free : b.find (base ++ [y]) = none

/-- There is such a node, which is no directory. -/
def Plain (h : UnixHost) (n : Nat) : Prop := n < h.files.size ∧ h.files.isDir n = false

structure Untouched (b h : UnixHost) : Prop where
  files : h.files = b.files
  cwd : h.cwd = b.cwd
  acted : h.acted = b.acted

/-- Only what the two names lead to is changed, and that is no directory. -/
structure Lands (S : Nat → Prop) (base : HostPath) (x y : Text) (b h : UnixHost) : Prop where
  within : Within S b h
  names : ∀ d z, ¬ (b.walk base = some d ∧ (z = x ∨ z = y)) →
    h.files.lookup d z = b.files.lookup d z
  plain : ∀ d z n, h.files.lookup d z = some n → b.files.lookup d z = some n ∨ h.Plain n

/-- The file `n` is open under the temporary name. -/
structure Writing (S : Nat → Prop) (base : HostPath) (y : Text) (b : UnixHost) (n : Nat)
    (h : UnixHost) : Prop where
  within : Within S b h
  names : ∀ d z, ¬ (b.walk base = some d ∧ z = y) → h.files.lookup d z = b.files.lookup d z
  fresh : b.files.size ≤ n
  file : ∃ data, h.files.body n = some (.file data)
  dir : ∃ d, b.walk base = some d ∧ b.files.isDir d = true ∧ h.files.lookup d y = some n
  opened : ∃ pos, h.opened = some (base ++ [y], n, pos)

theorem Untouched.refl (h : UnixHost) : Untouched h h := ⟨rfl, rfl, rfl⟩

/-- What does not hear of the calls, nor of the manifest. -/
def Deaf (P : UnixHost → Prop) : Prop := ∀ h k lines, P h → P { h with calls := k, manifest := lines }

theorem Untouched.deaf : Deaf (Untouched b) := fun _ _ _ hu => ⟨hu.files, hu.cwd, hu.acted⟩

theorem Untouched.walk (hu : Untouched b h) (path : HostPath) : h.walk path = b.walk path := by
  rw [UnixHost.walk, hu.files, hu.cwd, UnixHost.walk]

theorem Untouched.find (hu : Untouched b h) (path : HostPath) : h.find path = b.find path := by
  rw [UnixHost.find, hu.files, hu.cwd, UnixHost.find]

theorem Untouched.within (hu : Untouched b h) (S : Nat → Prop) : Within S b h :=
  (Within.refl S b).of_eq hu.files hu.cwd hu.acted

theorem Untouched.lands (hu : Untouched b h) : Lands S base x y b h :=
  ⟨hu.within S, fun _ _ _ => by rw [hu.files], fun _ _ _ hn => .inl (by rwa [← hu.files])⟩

theorem plain_of_body {f : FileTree.Body Text Bytes} (hb : h.files.body n = some f)
    (hf : ∀ parent entries, f ≠ .dir parent entries) : h.Plain n := by
  obtain ⟨v, hv, -⟩ := FileTree.Tree.node_of_body hb
  refine ⟨FileTree.Tree.size_of_node hv, ?_⟩
  cases hd : h.files.isDir n with
  | false => rfl
  | true =>
    obtain ⟨parent, entries, hb'⟩ := FileTree.Tree.isDir_iff.mp hd
    exact absurd (Option.some.inj (hb.symm.trans hb')) (hf parent entries)

theorem Writing.plain (hw : Writing S base y b n h) : h.Plain n := by
  obtain ⟨data, hb⟩ := hw.file
  exact plain_of_body hb fun _ _ he => by cases he

theorem Writing.lands (hw : Writing S base y b n h) : Lands S base x y b h where
  within := hw.within
  names d z hz := hw.names d z fun hh => hz ⟨hh.1, .inr hh.2⟩
  plain d z m hm := by
    by_cases hz : b.walk base = some d ∧ z = y
    · obtain ⟨d', hd', -, hn⟩ := hw.dir
      obtain rfl : d = d' := Option.some.inj (hz.1.symm.trans hd')
      rw [hz.2, hn] at hm
      exact .inr (Option.some.inj hm ▸ hw.plain)
    · rw [hw.names d z hz] at hm
      exact .inl hm

theorem Within.deaf : Deaf (Within S b) := fun _ _ _ hw => hw.of_eq rfl rfl rfl

theorem Lands.deaf : Deaf (Lands S base x y b) := fun _ _ _ hl =>
  ⟨hl.within.of_eq rfl rfl rfl, hl.names, hl.plain⟩

theorem Writing.deaf : Deaf (Writing S base y b n) := fun _ _ _ hw =>
  ⟨hw.within.of_eq rfl rfl rfl, hw.names, hw.fresh, hw.file, hw.dir, hw.opened⟩

/-- Something new under the name lands there. -/
theorem Untouched.putNode (hsite : Site S base x y b) (hu : Untouched b h) (hd : h.walk base = some d)
    (hdir : h.files.isDir d = true) (hfree : h.files.lookup d x = none) {v : HostNode}
    (hv : ∀ parent entries, v.body ≠ .dir parent entries) : Lands S base x y b (h.putNode d x v) := by
  have hbare : v.Bare := fun parent entries hb => absurd hb (hv parent entries)
  have hplain := plain_of_body (body_putNode (x := x) (v := v) hdir) hv
  rw [hu.walk] at hd
  rw [hu.files] at hfree
  have hsize : S h.files.size := hsite.new _ (by rw [hu.files])
  refine ⟨(hu.within S).putNode (hsite.dir d hd) hdir hfree hsize hbare, fun d' z hne => ?_,
    fun d' z n hn => ?_⟩
  · rw [lookup_putNode hdir hbare, if_neg, hu.files]
    rintro ⟨rfl, rfl⟩
    exact hne ⟨hd, .inl rfl⟩
  · rw [lookup_putNode hdir hbare] at hn
    split_ifs at hn
    · exact .inr (Option.some.inj hn ▸ hplain)
    · exact .inl (by rwa [← hu.files])

/-- The temporary file is made. -/
theorem Untouched.openNew (hsite : Site S base x y b) (hu : Untouched b h)
    (hrun : openNew (base ++ [y]) h = .ok h') : ∃ n, Writing S base y b n h' := by
  obtain ⟨d, hd, hdir, rfl⟩ := openNew_ok hsite.plain.2 (by rw [hu.find]; exact hsite.free) hrun
  have hfree := (find_concat_none hsite.plain.2).mp hsite.free
  have hbody := body_putNode (x := y) (v := newFile) hdir
  rw [hu.walk] at hd
  refine ⟨h.files.size, ?_, ?_, by rw [hu.files], ⟨[], hbody⟩, ?_, ⟨0, rfl⟩⟩
  · have hsize : S h.files.size := hsite.new _ (by rw [hu.files])
    exact ((hu.within S).putNode (hsite.dir d hd) hdir (hfree d hd) hsize newFile_bare).of_eq rfl rfl rfl
  · intro d' z hne
    show (h.putNode d y newFile).files.lookup d' z = _
    rw [lookup_putNode hdir newFile_bare, if_neg, hu.files]
    rintro ⟨rfl, rfl⟩
    exact hne ⟨hd, rfl⟩
  · refine ⟨d, hd, by rw [← hu.files]; exact hdir, ?_⟩
    show (h.putNode d y newFile).files.lookup d y = _
    rw [lookup_putNode hdir newFile_bare, if_pos ⟨rfl, rfl⟩]

/-- Where the open file is altered, it is still being written. -/
theorem Writing.alter (hnew : ∀ n, b.files.size ≤ n → S n) (hw : Writing S base y b n h)
    (f : HostNode → HostNode) {pos : Nat}
    (hf : ∀ v data, h.files.node n = some v → v.body = .file data → ∃ data', (f v).body = .file data') :
    Writing S base y b n { h.alterNode n f with opened := some (base ++ [y], n, pos) } := by
  obtain ⟨data, hdata⟩ := hw.file
  obtain ⟨v, hv, hb⟩ := FileTree.Tree.node_of_body hdata
  obtain ⟨data', hdata'⟩ := hf v data hv hb
  have hlookup {d z} : (h.alterNode n f).files.lookup d z = h.files.lookup d z := by
    refine FileTree.Tree.lookup_alter (by rw [FileTree.Tree.isDir, hdata]) ?_
    intro v' hv' parent entries hdir
    obtain rfl : v = v' := Option.some.inj (hv.symm.trans hv')
    rw [hdata'] at hdir
    cases hdir
  refine ⟨(hw.within.alterNode_new hw.fresh (hnew n hw.fresh) fun _ _ => hlookup).of_eq rfl rfl rfl, ?_, hw.fresh, ?_, ?_,
    ⟨pos, rfl⟩⟩
  · intro d z hz
    exact hlookup.trans (hw.names d z hz)
  · refine ⟨data', ?_⟩
    show (h.files.alter n f).body n = _
    rw [FileTree.Tree.body, FileTree.Tree.node_alter, if_pos rfl, hv, ← hdata']
    rfl
  · obtain ⟨d, hd, hdir, hl⟩ := hw.dir
    exact ⟨d, hd, hdir, hlookup.trans hl⟩

theorem Writing.withOpen (hnew : ∀ n, b.files.size ≤ n → S n) (hw : Writing S base y b n h)
    {f : Bytes → Nat → Bytes × Nat} (hrun : withOpen path f h = .ok h') : Writing S base y b n h' := by
  obtain ⟨m, pos, data, ho, -, rfl⟩ := withOpen_ok hrun
  obtain ⟨pos', ho'⟩ := hw.opened
  rw [ho] at ho'
  obtain ⟨rfl, rfl, rfl⟩ : path = base ++ [y] ∧ m = n ∧ pos = pos' := by simpa using ho'
  exact hw.alter hnew _ fun v data _ _ => ⟨_, rfl⟩

theorem Writing.chmodOpen (hnew : ∀ n, b.files.size ≤ n → S n) (hw : Writing S base y b n h) {mode : Nat}
    (hrun : chmodOpen path mode h = .ok h') : Writing S base y b n h' := by
  obtain ⟨m, pos, ho, rfl⟩ := chmodOpen_ok hrun
  obtain ⟨pos', ho'⟩ := hw.opened
  rw [ho] at ho'
  obtain ⟨rfl, rfl, rfl⟩ : path = base ++ [y] ∧ m = n ∧ pos = pos' := by simpa using ho'
  have : Writing S base y b m { h.alterNode m fun v => { v with info := { v.info with mode := some mode } } with
      opened := some (base ++ [y], m, pos) } :=
    hw.alter hnew _ fun v data _ hb => ⟨data, hb⟩
  rwa [show ({ h.alterNode m _ with opened := some (base ++ [y], m, pos) } : UnixHost) =
    h.alterNode m _ by rw [← ho]; rfl] at this

theorem Writing.writePartly (hnew : ∀ n, b.files.size ≤ n → S n) (hw : Writing S base y b n h)
    (d : Bytes) (k : Nat) : Writing S base y b n (writePartly path d k h) := by
  unfold UnixHost.writePartly
  split
  · rename_i h' hrun
    exact hw.withOpen hnew hrun
  · exact hw

theorem Writing.openData (hw : Writing S base y b n h) :
    h.files.body n = some (.file (h.openData (base ++ [y]))) := by
  obtain ⟨data, hbody⟩ := hw.file
  obtain ⟨pos, hopen⟩ := hw.opened
  simp [UnixHost.openData, hopen, fileData, hbody]

/-- The temporary file is removed. -/
theorem Lands.unlink (hsite : Site S base x y b) (hl : Lands S base x y b h)
    (hrun : unlink (base ++ [y]) h = .ok h') (hdir : ∃ d, b.walk base = some d) :
    Lands S base x y b h' := by
  obtain ⟨d, z, n, hs, -, rfl⟩ := unlink_ok hrun
  obtain ⟨hd, hisDir, hz⟩ := (spot_concat hsite.plain.2).mp hs
  obtain rfl : z = y := hz
  obtain ⟨d', hd'⟩ := hdir
  obtain rfl : d = d' := Option.some.inj (hd.symm.trans (hl.within.walk hd'))
  have hfree := (find_concat_none hsite.plain.2).mp hsite.free
  refine ⟨hl.within.unset (hsite.dir d hd') hisDir (hfree d hd'), fun d'' z' hz => ?_, fun d'' z' n hn => ?_⟩
  · show (h.files.setEntry d z none).lookup d'' z' = _
    rw [FileTree.Tree.lookup_setEntry _ hisDir, if_neg, hl.names d'' z' hz]
    rintro ⟨rfl, rfl⟩
    exact hz ⟨hd', .inr rfl⟩
  · rw [FileTree.Tree.lookup_setEntry _ hisDir] at hn
    split_ifs at hn
    refine (hl.plain d'' z' n hn).imp_right fun hplain => ⟨?_, ?_⟩
    · rw [FileTree.Tree.size_setEntry]
      exact hplain.1
    · rw [FileTree.Tree.isDir_setEntry]
      exact hplain.2

/-- The file is there under the name. -/
structure Landed (S : Nat → Prop) (base : HostPath) (x y : Text) (b : UnixHost) (data : Bytes)
    (h : UnixHost) : Prop where
  lands : Lands S base x y b h
  file : ∃ n, b.files.size ≤ n ∧ h.walk (base ++ [x]) = some n ∧ h.files.body n = some (.file data)

theorem Landed.deaf {data : Bytes} : Deaf (Landed S base x y b data) := fun h k lines hl =>
  ⟨Lands.deaf h k lines hl.lands, hl.file⟩

/-- A link to the target is there. -/
def Linked (h : UnixHost) (path : HostPath) (target : Text) : Prop :=
  ∃ n, h.find path = some n ∧ h.files.body n = some (.link (linkTarget target))

theorem Linked.within {target : Text} (hl : h.Linked path target) (hw : Within S h h') : h'.Linked path target := by
  obtain ⟨n, hn, hbody⟩ := hl
  exact ⟨n, hw.find hn, hw.grows.body_same hbody nofun⟩

theorem linked_putNode {target : Text} (hx : x ≠ ['.', '.']) (hs : h.spot (base ++ [x]) = some (d, x))
    (hfree : h.files.lookup d x = none) : (h.putNode d x (newLink target)).Linked (base ++ [x]) target := by
  obtain ⟨-, hdir, -⟩ := (spot_concat hx).mp hs
  have hbare : (newLink target).Bare := fun _ _ hb => by cases hb
  have hgrows : h.files.Grows (fun _ => True) (h.putNode d x (newLink target)).files :=
    ((FileTree.Tree.Grows.refl _ h.files).add _).setEntry trivial hfree _
  have hspot : (h.putNode d x (newLink target)).spot (base ++ [x]) = some (d, x) := hgrows.spot hs
  refine ⟨h.files.size, ?_, body_putNode hdir⟩
  rw [find_concat hx, hspot, Option.bind_some, lookup_putNode hdir hbare, if_pos ⟨rfl, rfl⟩]

/-- The file that was written gets its name. -/
theorem Writing.move (hsite : Site S base x y b) (hw : Writing S base y b n h) {data : Bytes}
    (hdata : h.files.body n = some (.file data)) (hfree : b.find (base ++ [x]) = none)
    (hrun : move (base ++ [y]) (base ++ [x]) h = .ok h') : Landed S base x y b data h' := by
  obtain ⟨d, hd, hdir, hn⟩ := hw.dir
  have hwalk := hw.within.walk hd
  have hisDir := hw.within.grows.isDir hdir
  have hx : b.files.lookup d x = none := (find_concat_none hsite.plain.1).mp hfree d hd
  have hy : b.files.lookup d y = none := (find_concat_none hsite.plain.2).mp hsite.free d hd
  have hx' : h.files.lookup d x = none := by
    rw [hw.names d x fun hh => hsite.ne hh.2, hx]
  have hs : h.spot (base ++ [y]) = some (d, y) := (spot_concat hsite.plain.2).mpr ⟨hwalk, hisDir, rfl⟩
  have hs' : h.spot (base ++ [x]) = some (d, x) := (spot_concat hsite.plain.1).mpr ⟨hwalk, hisDir, rfl⟩
  obtain rfl := move_ok hs hs' hn hx' hrun
  have hS := hsite.dir d hd
  have hdir' : (h.files.setEntry d y none).isDir d = true := by rw [FileTree.Tree.isDir_setEntry, hisDir]
  have hlookup (d' : Nat) (z : Text) : ((h.files.setEntry d y none).setEntry d x (some n)).lookup d' z =
      if d' = d ∧ z = x then some n else if d' = d ∧ z = y then none else h.files.lookup d' z := by
    rw [FileTree.Tree.lookup_setEntry _ hdir', FileTree.Tree.lookup_setEntry _ hisDir]
  have hgrows := (hw.within.grows.setEntry hS hy none).setEntry hS hx (some n)
  have hwithin : Within S b { h with
      files := (h.files.setEntry d y none).setEntry d x (some n), acted := h.acted ++ [d, d] } := by
    refine ⟨hgrows, fun d' z m hm => ?_, fun m hm => ?_, hw.within.cwd⟩
    · rw [hlookup] at hm
      split_ifs at hm
      · exact .inr (Option.some.inj hm ▸ hw.fresh)
      · exact hw.within.entries d' z m hm
    have hmem : m ∈ h.acted ∨ m = d := by simpa using hm
    rcases hmem with hm | rfl
    · exact hw.within.acted m hm
    · exact .inr hS
  refine ⟨⟨hwithin, fun d' z hz => ?_, fun d' z m hm => ?_⟩, n, hw.fresh, ?_, ?_⟩
  · show ((h.files.setEntry d y none).setEntry d x (some n)).lookup d' z = _
    have hzx : ¬ (d' = d ∧ z = x) := fun hh => hz ⟨hh.1 ▸ hd, .inl hh.2⟩
    have hzy : ¬ (d' = d ∧ z = y) := fun hh => hz ⟨hh.1 ▸ hd, .inr hh.2⟩
    rw [hlookup, if_neg hzx, if_neg hzy]
    exact hw.names d' z fun hh => hz ⟨hh.1, .inr hh.2⟩
  · rw [hlookup] at hm
    split_ifs at hm with hzx hzy
    · obtain rfl : n = m := Option.some.inj hm
      refine .inr ⟨?_, ?_⟩
      · rw [FileTree.Tree.size_setEntry, FileTree.Tree.size_setEntry]
        exact hw.plain.1
      · rw [FileTree.Tree.isDir_setEntry, FileTree.Tree.isDir_setEntry]
        exact hw.plain.2
    · rw [hw.names d' z fun hh => hzy ⟨Option.some.inj (hh.1.symm.trans hd), hh.2⟩] at hm
      exact .inl hm
  · have hne : d ≠ n := by
      rintro rfl
      have := size_of_isDir hdir
      exact absurd hw.fresh (by omega)
    have hbody : ((h.files.setEntry d y none).setEntry d x (some n)).body n = some (.file data) := by
      rw [FileTree.Tree.body_setEntry_of_ne _ hne, FileTree.Tree.body_setEntry_of_ne _ hne, hdata]
    have hl := hlookup d x
    rw [if_pos ⟨rfl, rfl⟩] at hl
    have hadv := FileTree.Tree.advance_name hl hbody fun l hl => by cases hl
    have hw' := hwithin.walk hd
    unfold UnixHost.walk at hw' ⊢
    rw [steps_concat hsite.plain.1]
    exact FileTree.Tree.walk_append hadv hw'
  · have hne : d ≠ n := by
      rintro rfl
      have := size_of_isDir hdir
      exact absurd hw.fresh (by omega)
    show ((h.files.setEntry d y none).setEntry d x (some n)).body n = _
    rw [FileTree.Tree.body_setEntry_of_ne _ hne, FileTree.Tree.body_setEntry_of_ne _ hne, hdata]

/-- A file that is there may be given another time. -/
theorem Landed.touch (hsite : Site S base x y b) {data : Bytes} (hl : Landed S base x y b data h) {sec : Int}
    {nsec : Nat} (hrun : touch (base ++ [x]) sec nsec h = .ok h') : Landed S base x y b data h' := by
  obtain ⟨n, hfresh, hn, hdata⟩ := hl.file
  obtain ⟨m, hm, rfl⟩ := touch_ok hrun
  obtain rfl : n = m := Option.some.inj (hn.symm.trans hm)
  have hbody (k : Nat) : (h.files.alter n fun v =>
      { v with info := { v.info with mtime := some (sec, nsec) } }).body k = h.files.body k :=
    FileTree.Tree.body_alter _ fun _ _ => rfl
  have hwithin : Within S b (h.alterNode n fun v =>
      { v with info := { v.info with mtime := some (sec, nsec) } }) :=
    hl.lands.within.alterNode_new hfresh (hsite.new n hfresh)
      fun _ _ => FileTree.Tree.lookup_congr (hbody _)
  refine ⟨⟨hwithin, fun d z hz => ?_, fun d z m hm => ?_⟩, n, hfresh, ?_, (hbody n).trans hdata⟩
  · exact (FileTree.Tree.lookup_congr (hbody d)).trans (hl.lands.names d z hz)
  · refine (hl.lands.plain d z m ((FileTree.Tree.lookup_congr (hbody d)).symm.trans hm)).imp_right fun hp => ?_
    refine ⟨?_, (FileTree.Tree.isDir_congr (hbody m)).trans hp.2⟩
    show m < (h.files.alter n _).size
    rw [FileTree.Tree.size_alter]
    exact hp.1
  · rw [← hn]
    exact FileTree.Tree.walk_congr hbody _ _ _

/-! ## Calls -/

section calls

variable {P Q E : UnixHost → Prop} {x : UnixHost → Except OsError UnixHost}

theorem call_ensures {partly : Nat → UnixHost → UnixHost} (hP : Deaf P)
    (hx : ∀ h h', P h → x h = .ok h' → Q h') (hE : ∀ h, P h → E h)
    (hpartly : ∀ n h, P h → E (partly n h)) : Ensures P (call partly x) (fun _ => Q) fun _ => E := by
  intro h hp
  have hcalls : P { h with calls := h.calls + 1 } := hP h _ h.manifest hp
  unfold call
  dsimp only
  cases h.faults h.calls with
  | some f => exact hpartly _ _ hcalls
  | none =>
    dsimp only
    cases hrun : x { h with calls := h.calls + 1 } with
    | error e => exact hE _ hcalls
    | ok h' => exact hx _ _ hcalls hrun

theorem whole_ensures (hP : Deaf P) (hx : ∀ h h', P h → x h = .ok h' → Q h') (hE : ∀ h, P h → E h) :
    Ensures P (whole x) (fun _ => Q) fun _ => E := call_ensures hP hx hE fun _ => hE

theorem symlinkMetadata_none {path : HostPath} {h : UnixHost} (hn : h.find path = none) :
    unixHost.symlinkMetadata path h = .error noEntry h := by
  simp [unixHost, UnixHost.symlinkMetadata, hn]

theorem symlinkMetadata_some {path : HostPath} {h : UnixHost} {n : Nat} (hn : h.find path = some n) :
    unixHost.symlinkMetadata path h = .ok (h.files.isLink n) h := by
  simp [unixHost, UnixHost.symlinkMetadata, hn]

theorem manifestLine_keeps (hP : Deaf P) (line : ManifestLine) : Keeps P (unixHost.manifestLine line) := by
  show Ensures P (whole fun h => .ok { h with manifest := h.manifest ++ [line] }) (fun _ => P) fun _ => P
  refine whole_ensures hP (fun h h' hp hrun => ?_) fun _ h => h
  cases hrun
  exact hP h h.calls _ hp

/-- A call that does nothing to the files. -/
theorem idle_keeps (hP : Deaf P) : Keeps P (whole .ok) := by
  refine whole_ensures hP (fun h h' hp hrun => ?_) fun _ h => h
  cases hrun
  exact hp

end calls

/-! ## Directories -/

/-- What is made was not there. -/
theorem walk_of_make {v : Nat → HostNode} (hrun : make path v h = .ok h') : h.walk path = none := by
  obtain ⟨d, x, hs, hl, -⟩ := make_ok hrun
  refine FileTree.Tree.walk_of_spot_free hs fun m hm => ?_
  rw [hl] at hm
  cases hm

/-- What a path goes through is there. -/
theorem walk_dropLast (hn : h.walk path = some n) : ∃ d, h.walk path.dropLast = some d := by
  rcases path.eq_nil_or_concat with rfl | ⟨base, x, rfl⟩
  · exact ⟨n, hn⟩
  · rw [List.concat_eq_append, List.dropLast_concat]
    rw [List.concat_eq_append, UnixHost.walk, steps, List.map_append] at hn
    exact FileTree.Tree.walk_of_append hn

theorem orThere_ensures {P E : UnixHost → Prop} {Q : UnixHost → Prop} {op : HostOp UnixHost Unit}
    (hop : Ensures P op (fun _ => Q) fun _ => E) (hthere : ∀ h, E h → h.isDir path = true → Q h) :
    Ensures P (orThere path op) (fun _ => Q) fun _ => E := by
  intro h hp
  have := hop h hp
  unfold orThere
  cases hrun : op h with
  | ok u h' =>
    rw [hrun] at this
    exact this
  | error e h' =>
    rw [hrun] at this
    dsimp only
    by_cases hd : h'.isDir path = true
    · rw [if_pos hd]
      exact hthere h' this hd
    · rw [if_neg hd]
      exact this

/-- A directory is made, or the one that it is in first, or it is there. -/
theorem createDirAll_ensures {P Q : UnixHost → Prop} {fuel : Nat} (hmk : Ensures P (mkdir path) (fun _ => Q) fun _ => P)
    (hup : Keeps P (createDirAll fuel path.dropLast)) (hthere : ∀ h, P h → h.isDir path = true → Q h) :
    Ensures P (createDirAll (fuel + 1) path) (fun _ => Q) fun _ => P := by
  intro h hp
  have := hmk h hp
  unfold createDirAll
  cases hrun : mkdir path h with
  | ok u h' =>
    rw [hrun] at this
    exact this
  | error e h' =>
    rw [hrun] at this
    dsimp only
    split_ifs with hnot hdir
    · have hup := hup h' this
      cases hrun' : createDirAll fuel path.dropLast h' with
      | error e' h'' =>
        rw [hrun'] at hup
        exact hup
      | ok u h'' =>
        rw [hrun'] at hup
        exact orThere_ensures hmk hthere h'' hup
    · exact hthere h' this hdir
    · exact this

/-- A directory that is there is not made again. -/
theorem mkdir_there (hn : b.walk path = some n) : Keeps (Untouched b) (mkdir path) := by
  refine whole_ensures Untouched.deaf (fun h h' hu hrun => ?_) fun _ h => h
  rw [← hu.walk, walk_of_make hrun] at hn
  cases hn

theorem createDirAll_there : ∀ (fuel : Nat) {path : HostPath} {n : Nat}, b.walk path = some n →
    Keeps (Untouched b) (createDirAll fuel path)
  | 0, _, _, _ => .pure _
  | fuel + 1, path, n, hn => by
    obtain ⟨d, hd⟩ := walk_dropLast hn
    exact createDirAll_ensures (mkdir_there hn) (createDirAll_there fuel hd) fun _ h _ => h

/-- There is a directory at the path, of those that may change. -/
def Sited (S : Nat → Prop) (path : HostPath) (h : UnixHost) : Prop :=
  ∃ d, h.walk path = some d ∧ h.files.isDir d = true ∧ S d

theorem Sited.isDir (hs : Sited S path h) : h.isDir path = true := by
  obtain ⟨d, hd, hdir, -⟩ := hs
  exact (Option.any_eq_true _ _).mpr ⟨d, hd, hdir⟩

theorem Sited.within (hs : Sited S path h) (hw : Within S' h h') : Sited S path h' := by
  obtain ⟨d, hd, hdir, hS⟩ := hs
  exact ⟨d, hw.walk hd, hw.grows.isDir hdir, hS⟩

theorem Within.make (hw : Within S b h) (hnew : ∀ n, b.files.size ≤ n → S n)
    (hspot : ∀ s, h.spot path = some s → S s.1) (hrun : make path newDir h = .ok h') : Within S b h' := by
  obtain ⟨d, x, hs, hl, rfl⟩ := make_ok hrun
  refine hw.putNode (hspot _ hs) (FileTree.Tree.isDir_of_spot hs) ?_ (hnew _ hw.grows.size_le) (newDir_bare d)
  cases hb : b.files.lookup d x with
  | none => rfl
  | some n =>
    rw [hw.grows.lookup hb] at hl
    cases hl

/-- The directory is new. -/
theorem sited_of_make (hrun : UnixHost.make path newDir h = .ok h') (hS : S h.files.size) :
    Sited S path h' := by
  obtain ⟨d, x, hs, hl, rfl⟩ := make_ok hrun
  have hdir : h.files.isDir d = true := FileTree.Tree.isDir_of_spot hs
  have hbody := body_putNode (x := x) (v := newDir d) hdir
  have hgrows : h.files.Grows (fun _ => True) (h.putNode d x (newDir d)).files :=
    ((FileTree.Tree.Grows.refl _ h.files).add _).setEntry trivial hl _
  have hlookup : (h.putNode d x (newDir d)).files.lookup d x = some h.files.size := by
    rw [lookup_putNode hdir (newDir_bare d), if_pos ⟨rfl, rfl⟩]
  have hwalk : (h.putNode d x (newDir d)).walk path = some h.files.size :=
    FileTree.Tree.walk_of_spot (hgrows.spot hs) hlookup hbody fun l hl => by cases hl
  exact ⟨_, hwalk, FileTree.Tree.isDir_iff.mpr ⟨_, _, hbody⟩, hS⟩

/-- One that is in a directory of those that may change is made there, or it is there. -/
theorem createDirAll_makes {fuel : Nat} (hx : x ≠ ['.', '.']) (hbase : Sited S base b)
    (hnew : ∀ n, b.files.size ≤ n → S n) :
    Ensures (Untouched b) (createDirAll (fuel + 1) (base ++ [x]))
      (fun _ h => (Within S b h ∧ Sited S (base ++ [x]) h) ∨ (Untouched b h ∧ h.isDir (base ++ [x]) = true))
      fun _ => Untouched b := by
  obtain ⟨d, hd, hdir, hS⟩ := hbase
  refine createDirAll_ensures ?_ ?_ fun h hu hd => .inr ⟨hu, hd⟩
  · refine whole_ensures Untouched.deaf (fun h h' hu hrun => ?_) fun _ h => h
    refine .inl ⟨(hu.within S).make hnew (fun s hs => ?_) hrun, sited_of_make hrun (hnew _ ?_)⟩
    · obtain ⟨hs, -, -⟩ := (spot_concat hx).mp hs
      rw [hu.walk, hd] at hs
      rwa [← Option.some.inj hs]
    · rw [hu.files]
  · rw [List.dropLast_concat]
    exact createDirAll_there fuel hd

/-- Wherever it is, if all may change. -/
theorem createDirAll_anywhere (hS : ∀ n, S n) : ∀ (fuel : Nat) {path : HostPath}, path.length ≤ fuel →
    Ensures (Within S b) (createDirAll fuel path)
      (fun _ h => Within S b h ∧ (path = [] ∨ h.isDir path = true)) fun _ => Within S b
  | 0, path, hlen => Ensures.pure fun h hw => ⟨hw, .inl (List.eq_nil_of_length_eq_zero (by omega))⟩
  | fuel + 1, path, hlen => by
    have hlen' : path.dropLast.length ≤ fuel := by simp; omega
    refine createDirAll_ensures ?_ ?_ fun h hw hd => ⟨hw, .inr hd⟩
    · refine whole_ensures Within.deaf (fun h h' hw hrun => ?_) fun _ h => h
      exact ⟨hw.make (fun n _ => hS n) (fun s _ => hS _) hrun,
        .inr (sited_of_make (S := S) hrun (hS _)).isDir⟩
    · exact (createDirAll_anywhere hS fuel hlen').mono (fun _ h => h) (fun _ _ h => h.1) fun _ _ h => h

/-- Where a directory may be made, or one is: anywhere, if all may change. -/
def Makeable (S : Nat → Prop) (path : HostPath) (h : UnixHost) : Prop :=
  (∀ n, S n) ∨ Sited S path h ∨ ∃ base x, path = base ++ [x] ∧ x ≠ ['.', '.'] ∧ Sited S base h

theorem Makeable.within (hm : Makeable S path h) (hw : Within S' h h') : Makeable S path h' := by
  rcases hm with hS | hs | ⟨base, x, hpath, hx, hs⟩
  · exact .inl hS
  · exact .inr (.inl (hs.within hw))
  · exact .inr (.inr ⟨base, x, hpath, hx, hs.within hw⟩)

/-- A path leads to what is there, if this is no link. -/
theorem lookup_of_walk (hs : h.spot path = some (d, x))
    (hlink : ∀ n, h.files.lookup d x = some n → h.files.isLink n = false) (hm : h.walk path = some m) :
    h.files.lookup d x = some m := by
  by_cases hgone : ∀ n, h.files.lookup d x = some n → h.files.body n = none
  · rw [UnixHost.walk, FileTree.Tree.walk_of_spot_free hs hgone] at hm
    cases hm
  · obtain ⟨n, hl, hb⟩ : ∃ n, h.files.lookup d x = some n ∧ h.files.body n ≠ none := by simpa using hgone
    obtain ⟨body, hb⟩ := Option.ne_none_iff_exists'.mp hb
    have hnot := hlink n hl
    have hwalk : h.walk path = some n := FileTree.Tree.walk_of_spot hs hl hb fun l he => by
      rw [FileTree.Tree.isLink, hb, he] at hnot
      cases hnot
    rw [hl, ← hwalk, hm]

/-- What is there, and is no link, may change if what it is in may. -/
theorem sited_of_isDir (hclosed : ∀ d x n, S d → h.files.lookup d x = some n → S n)
    (hx : x ≠ ['.', '.']) (hbase : Sited S base h)
    (hlink : ∀ n, h.find (base ++ [x]) = some n → h.files.isLink n = false)
    (hd : h.isDir (base ++ [x]) = true) : Sited S (base ++ [x]) h := by
  obtain ⟨d, hw, hdir, hS⟩ := hbase
  obtain ⟨m, hm, hmdir⟩ := (Option.any_eq_true _ _).mp hd
  have hs : h.spot (base ++ [x]) = some (d, x) := (spot_concat hx).mpr ⟨hw, hdir, rfl⟩
  rw [find_concat hx, hs] at hlink
  exact ⟨m, hm, hmdir, hclosed d x m hS (lookup_of_walk hs hlink hm)⟩

theorem createDirAll_sites (hnew : ∀ n, b.files.size ≤ n → S n)
    (hclosed : ∀ d x n, S d → b.files.lookup d x = some n → S n) (hstart : b.isDir [] = true)
    (hmake : Makeable S path b) (hlink : ∀ n, b.find path = some n → b.files.isLink n = false) :
    Ensures (Untouched b) (createDirAll path.length path) (fun _ h => Within S b h ∧ Sited S path h)
      fun _ => Within S b := by
  rcases hmake with hS | hsited | ⟨base, x, rfl, hx, hbase⟩
  · refine (createDirAll_anywhere hS _ (Nat.le_refl _)).mono (fun h hu => hu.within S)
      (fun _ h hh => ⟨hh.1, ?_⟩) fun _ _ h => h
    have hd : h.isDir path = true := by
      rcases hh.2 with rfl | hd
      · exact hh.1.isDir hstart
      · exact hd
    obtain ⟨m, hm, hdir⟩ := (Option.any_eq_true _ _).mp hd
    exact ⟨m, hm, hdir, hS m⟩
  · have hsame := hsited
    obtain ⟨d, hd, -⟩ := hsame
    refine (createDirAll_there _ hd).mono (fun _ h => h) (fun _ h hu => ⟨hu.within S, ?_⟩) fun _ h hu => hu.within S
    exact hsited.within (hu.within S)
  · rw [List.length_append]
    refine (createDirAll_makes hx hbase hnew).mono (fun _ h => h) (fun _ h hh => ?_) fun _ h hu => hu.within S
    rcases hh with hh | ⟨hu, hd⟩
    · exact hh
    · refine ⟨hu.within S, ?_⟩
      have hd' : b.isDir (base ++ [x]) = true := by
        rw [← hd, UnixHost.isDir, UnixHost.isDir, hu.walk, hu.files]
      exact (sited_of_isDir hclosed hx hbase hlink hd').within (hu.within S)

/-- The directory that is made at the path is new, and empty. -/
structure Founded (d : Nat) (x : Text) (path : HostPath) (b h : UnixHost) : Prop where
  within : Within (fun n => n = d ∨ b.files.size ≤ n) b h
  names : ∀ d' z n, h.files.lookup d' z = some n → b.files.lookup d' z = some n ∨ (d' = d ∧ z = x)
  empty : ∃ m, b.files.size ≤ m ∧ h.walk path = some m ∧ h.files.isDir m = true ∧
    ∀ z, h.files.lookup m z = none

theorem Founded.deaf : Deaf (Founded d x path b) := fun _ _ _ hf =>
  ⟨hf.within.of_eq rfl rfl rfl, hf.names, hf.empty⟩

theorem lookup_of_size_le (hn : h.files.size ≤ n) (z : Text) : h.files.lookup n z = none := by
  cases hl : h.files.lookup n z with
  | none => rfl
  | some m =>
    obtain ⟨parent, entries, hbody, -⟩ := FileTree.Tree.dir_of_lookup hl
    have := size_of_isDir (FileTree.Tree.isDir_iff.mpr ⟨parent, entries, hbody⟩)
    omega

theorem Untouched.founds (hu : Untouched b h) (hs : b.spot path = some (d, x))
    (hrun : UnixHost.make path newDir h = .ok h') : Founded d x path b h' := by
  obtain ⟨d', x', hs', hl, rfl⟩ := make_ok hrun
  have hspot : h.spot path = some (d, x) := by rw [UnixHost.spot, hu.files, hu.cwd]; exact hs
  obtain ⟨rfl, rfl⟩ : d' = d ∧ x' = x := by simpa using hs'.symm.trans hspot
  have hdir : h.files.isDir d' = true := FileTree.Tree.isDir_of_spot hs'
  have hbare := newDir_bare d'
  have hbody := body_putNode (x := x') (v := newDir d') hdir
  have hlookup : (h.putNode d' x' (newDir d')).files.lookup d' x' = some h.files.size := by
    rw [lookup_putNode hdir hbare, if_pos ⟨rfl, rfl⟩]
  have hgrows : h.files.Grows (fun _ => True) (h.putNode d' x' (newDir d')).files :=
    ((FileTree.Tree.Grows.refl _ h.files).add _).setEntry trivial hl _
  refine ⟨(hu.within _).putNode (.inl rfl) hdir (by rwa [← hu.files]) (.inr (by rw [hu.files])) hbare,
    fun d'' z n hn => ?_, h.files.size, by rw [hu.files], ?_, FileTree.Tree.isDir_iff.mpr ⟨_, _, hbody⟩,
    fun z => ?_⟩
  · rw [lookup_putNode hdir hbare] at hn
    split_ifs at hn with hz
    · exact .inr hz
    · exact .inl (by rwa [← hu.files])
  · exact FileTree.Tree.walk_of_spot (hgrows.spot hs') hlookup hbody fun l hl => by cases hl
  · have hne : ¬ (h.files.size = d' ∧ z = x') := fun hh => by
      have := size_of_isDir hdir
      omega
    rw [lookup_putNode hdir hbare, if_neg hne, lookup_of_size_le (Nat.le_refl _)]

/-- Where nothing is, or what is no directory, one is made that is new. -/
theorem createDirAll_founds {fuel : Nat} (hx : x ≠ ['.', '.']) (hd : b.walk base = some d)
    (hdir : b.files.isDir d = true)
    (hno : ∀ n, b.files.lookup d x = some n → b.files.isDir n = false ∧ b.files.isLink n = false) :
    Ensures (Untouched b) (createDirAll (fuel + 1) (base ++ [x]))
      (fun _ => Founded d x (base ++ [x]) b) fun _ => Untouched b := by
  have hs : b.spot (base ++ [x]) = some (d, x) := (spot_concat hx).mpr ⟨hd, hdir, rfl⟩
  refine createDirAll_ensures ?_ ?_ fun h hu hthere => ?_
  · exact whole_ensures Untouched.deaf (fun h h' hu hrun => hu.founds hs hrun) fun _ h => h
  · rw [List.dropLast_concat]
    exact createDirAll_there fuel hd
  · obtain ⟨m, hm, hmdir⟩ := (Option.any_eq_true _ _).mp hthere
    rw [hu.walk] at hm
    have hl := lookup_of_walk hs (fun n hn => (hno n hn).2) hm
    rw [hu.files, (hno m hl).1] at hmdir
    cases hmdir

/-- A directory's time may be set. -/
theorem Within.touch (hw : Within S b h) (hs : Sited S path h) {sec : Int} {nsec : Nat}
    (hrun : touch path sec nsec h = .ok h') : Within S b h' := by
  obtain ⟨n, hn, rfl⟩ := touch_ok hrun
  obtain ⟨m, hm, hdir, hS⟩ := hs
  obtain rfl : n = m := Option.some.inj (hn.symm.trans hm)
  exact hw.trans ((Within.refl _ h).alterNode_info hdir hS
    fun info => { info with mtime := some (sec, nsec) })

end UnixHost

end BtrfsPeek
