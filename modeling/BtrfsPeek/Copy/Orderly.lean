import BtrfsPeek.Copy.Standing

/-!
# Where temporary names are free

Copying to an empty directory, where no name that is given in one directory is the
temporary name of a later one. What is in a directory that is copied to then is what was
given a name, and files that were not finished (`Copier.Filled`), and nothing stands where a
temporary file goes (`Copier.copy_free`). Where no name has to be changed, this is so, since
a name comes before its temporary name (`Copier.copy_clean`).
-/

namespace BtrfsPeek

open Effect UnixHost

/-- No name is the temporary name of a later one. -/
def Orderly (given : List (Entry × Text)) : Prop := given.Pairwise fun a b => a.2 ≠ temporary b.2

namespace UnixHost

variable {S : Nat → Prop} {b b' h h' : UnixHost} {d m n : Nat} {x : Text} {path : HostPath}

/-- What may not change has the names in it that it had. -/
theorem Within.lookup_eq (hw : Within S b h) (hn : ¬ S d) (hd : d < b.files.size) (z : Text) :
    h.files.lookup d z = b.files.lookup d z := by
  obtain ⟨v, hv⟩ : ∃ v, b.files.node d = some v := ⟨_, List.getElem?_eq_getElem hd⟩
  have hv' := hw.grows.same d v hv (.inl hn)
  exact FileTree.Tree.lookup_congr (by
    rw [FileTree.Tree.body_of_node hv', FileTree.Tree.body_of_node hv])

theorem Plain.within (hp : h.Plain n) (hw : Within S h h') : h'.Plain n := by
  obtain ⟨v, hv⟩ : ∃ v, h.files.node n = some v := ⟨_, List.getElem?_eq_getElem hp.1⟩
  exact ⟨Nat.lt_of_lt_of_le hp.1 hw.grows.size_le, (hw.grows.isDir_eq hv).trans hp.2⟩

/-- What a copy to a new directory is to change. -/
abbrev FromHere (b : UnixHost) (m n : Nat) : Prop := n = m ∨ b.files.size ≤ n

/-- The names in a directory that entries were copied to under the names `taken`. -/
structure Filled (b : UnixHost) (m : Nat) (taken : List Text) (h : UnixHost) : Prop where
  within : Within (FromHere b m) b h
  names : ∀ z n, h.files.lookup m z = some n → z ∈ taken ∨ ((∃ y ∈ taken, z = temporary y) ∧ h.Plain n)

/-- Of what was there, only `d` has changed, and that only under the name. -/
structure Sprouted (d : Nat) (x : Text) (b h : UnixHost) : Prop where
  within : Within (FromHere b d) b h
  names : ∀ z n, h.files.lookup d z = some n → b.files.lookup d z = some n ∨ z = x

theorem Untouched.sprouted (hu : Untouched b h) : Sprouted d x b h :=
  ⟨hu.within _, fun _ _ hn => .inl (by rwa [← hu.files])⟩

/-- What is done later under one more name. -/
theorem Filled.later {taken : List Text} (hf : Filled b m taken h) (hw : Within (FromHere h m) h h')
    (hnames : ∀ z n, h'.files.lookup m z = some n → h.files.lookup m z = some n ∨ z = x ∨
      (z = temporary x ∧ h'.Plain n)) : Filled b m (x :: taken) h' := by
  have hsize := hf.within.grows.size_le
  have hw' : Within (FromHere b m) h h' := hw.mono fun n hn => hn.imp_right fun h => hsize.trans h
  refine ⟨hf.within.trans hw', fun z n hn => ?_⟩
  rcases hnames z n hn with hn | rfl | ⟨rfl, hplain⟩
  · rcases hf.names z n hn with hz | ⟨⟨y, hy, hz⟩, hplain⟩
    · exact .inl (List.mem_cons_of_mem _ hz)
    · exact .inr ⟨⟨y, List.mem_cons_of_mem _ hy, hz⟩, hplain.within hw'⟩
  · exact .inl List.mem_cons_self
  · exact .inr ⟨⟨x, List.mem_cons_self, rfl⟩, hplain⟩

/-- What a directory holds that was made for an entry, for the directory that it is in. -/
theorem Founded.sprouted (hf : Founded d x path b h) (hd : d < b.files.size) (hm : b.files.size ≤ m)
    (hw : Within (FromHere h m) h h') : Sprouted d x b h' := by
  have hsize := hf.within.grows.size_le
  have hw' : Within (FromHere b d) h h' := hw.mono fun n hn => by
    rcases hn with rfl | hn
    · exact .inr hm
    · exact .inr (hsize.trans hn)
  refine ⟨hf.within.trans hw', fun z n hn => ?_⟩
  have hother : ¬ FromHere h m d := by
    rintro (rfl | hh) <;> omega
  rw [hw.lookup_eq hother (by omega)] at hn
  exact (hf.names d z n hn).imp_right fun hh => hh.2

end UnixHost

namespace Copier

variable {β : Type} {c : Copier β UnixHost HostPath} {s₀ : FsState β} {P Q E : UnixHost → Prop} {α : Type}

/-- Nothing stood at a temporary name, and `P` holds of the host. -/
abbrev Freely (c : Copier β UnixHost HostPath) (s₀ : FsState β) (P : UnixHost → Prop)
    (t : FsState β × Work UnixHost) : Prop := TemporariesFree t.2.log ∧ c.Reading s₀ P t

/-- What records nothing. -/
theorem freely_of_frame {x : CopyM β UnixHost α} {Q : α → UnixHost → Prop}
    (hlog : Keeps (OfWork (OfLog TemporariesFree)) x)
    (h : Ensures (c.Reading s₀ P) x (fun a => c.Reading s₀ (Q a)) fun _ => c.Reading s₀ E) :
    Ensures (c.Freely s₀ P) x (fun a => c.Freely s₀ (Q a)) fun _ => c.Freely s₀ E := hlog.and h

theorem record_freely {ev : CopyEvent UnixHost} (hev : ev.temporaryFree = true)
    {E : Error → FsState β × Work UnixHost → Prop} :
    Ensures (c.Freely s₀ P) (record ev) (fun _ => c.Freely s₀ P) E := by
  intro t ht
  refine ⟨fun e he => ?_, ht.2⟩
  rcases List.mem_append.mp he with he | he
  · exact ht.1 e he
  · rw [List.mem_singleton.mp he]
    exact hev

theorem report_freely (f : Report → Report) {E : Error → FsState β × Work UnixHost → Prop} :
    Ensures (c.Freely s₀ P) (report f) (fun _ => c.Freely s₀ P) E := fun _ ht => ht

theorem onFst_freely {x : FsM β α} (hx : Keeps (c.fs.Later s₀) x) :
    Ensures (c.Freely s₀ P) (onFst x)
      (fun a t => c.Freely s₀ P t ∧ c.fs.Sometime s₀ x (· = a)) fun _ => c.Freely s₀ P := by
  refine ((onFst_keeps (OfLog TemporariesFree) x).and (onFst_going (Fs.sometime_of_keeps hx))).mono
    (fun _ h => h) (fun _ t h => ⟨⟨h.1, h.2.1⟩, h.2.2⟩) fun _ _ h => h

theorem skips_freely (e : Entry) (dir : Loc) : Keeps (c.Freely s₀ P) (c.skips e dir) :=
  freely_of_frame (skips_keeps _ e dir) (keeps_going (skips_reads e dir) (skips_keeps (fun w => P w.host) e dir))

section unix

variable (hc : c.host = unixHost) (hp : c.platform.windows = false) (hforce : c.opts.force = false)

section directory

variable {dest : HostPath} {b : UnixHost} {m : Nat} (hm : b.walk dest = some m)
  {taken : List Text} {x : Text} (hx : UnixName x) (hnew : x ∉ taken) (hlast : ∀ y ∈ taken, y ≠ temporary x)

include hc hp hforce hm hx hnew hlast

/-- What is copied under a name that is new, and whose temporary name was not given. -/
theorem copyLeaf_fills (loc : Loc) (src : Text) :
    Ensures (c.Freely s₀ (Filled b m taken)) (c.copyLeaf loc src (dest ++ [x]))
      (fun _ => c.Freely s₀ (Filled b m (x :: taken))) fun _ => c.Freely s₀ (Filled b m (x :: taken)) := by
  refine Ensures.of_start fun t ht => ?_
  have hf : Filled b m taken t.2.host := ht.2.2
  have hwalk := hf.within.walk hm
  have hfree : t.2.host.find (dest ++ [temporary x]) = none := by
    refine (find_concat_none (unixName_temporary hx).ne_dots).mpr fun d hd => ?_
    obtain rfl : d = m := Option.some.inj (hd.symm.trans hwalk)
    cases hl : t.2.host.files.lookup d (temporary x) with
    | none => rfl
    | some n =>
      rcases hf.names _ n hl with hz | ⟨⟨y, hy, hz⟩, -⟩
      · exact absurd rfl (hlast _ hz)
      · rw [temporary_injective hz] at hnew
        exact absurd hy hnew
  have hsite : Site (FromHere t.2.host m) dest x (temporary x) t.2.host := by
    refine ⟨⟨hx.ne_dots, (unixName_temporary hx).ne_dots⟩, temporary_ne x, fun _ hn => .inr hn, ?_, hfree⟩
    intro d hd
    exact .inl (Option.some.inj (hd.symm.trans hwalk))
  have hname : (dest ++ [x]).withFileName c.platform (partialName (dest ++ [x])) =
      dest ++ [temporary x] := by
    rw [show c.platform = ⟨false⟩ by rw [← hp]]
    exact tmpOf_concat hx dest
  have hlands : Ensures (c.Reading s₀ (Untouched t.2.host)) (c.copyLeaf loc src (dest ++ [x]))
      (fun _ => Going c.fs s₀ (c.Brought s₀ (FromHere t.2.host m) dest x (temporary x) t.2.host loc src))
      fun _ => c.Reading s₀ (Lands (FromHere t.2.host m) dest x (temporary x) t.2.host) :=
    copyLeaf_lands hc hsite hp (.inl hforce) hname loc src
  have hfills (u : FsState β × Work UnixHost)
      (hu : c.Reading s₀ (Lands (FromHere t.2.host m) dest x (temporary x) t.2.host) u) :
      c.Reading s₀ (Filled b m (x :: taken)) u := by
    refine ⟨hu.1, hf.later hu.2.within fun z n hn => ?_⟩
    by_cases hz : z = x ∨ z = temporary x
    · rcases hz with rfl | rfl
      · exact .inr (.inl rfl)
      · rcases hu.2.plain m _ n hn with hn | hplain
        · rw [(find_concat_none (unixName_temporary hx).ne_dots).mp hfree m hwalk] at hn
          cases hn
        · exact .inr (.inr ⟨rfl, hplain⟩)
    · rw [hu.2.names m z fun hh => hz hh.2] at hn
      exact .inl hn
  have hlog : Ensures (fun u => u = t) (c.copyLeaf loc src (dest ++ [x]))
      (fun _ u => TemporariesFree u.2.log) fun _ u => TemporariesFree u.2.log := by
    rintro u rfl
    refine leafRest_keeps (respects_log (c := c) (R := TemporariesFree)) loc src trivial trivial _ ?_
    intro e he
    rcases List.mem_append.mp he with he | he
    · exact ht.1 e he
    · rw [List.mem_singleton.mp he, CopyEvent.temporaryFree, tmpOf_concat hx, hfree]
      rfl
  refine (hlog.and hlands).mono (fun u hu => ?_)
    (fun _ u hu => ⟨hu.1, hfills u ⟨hu.2.1, hu.2.2.1⟩⟩) fun _ u hu => ⟨hu.1, hfills u hu.2⟩
  rw [hu]
  exact ⟨rfl, ht.2.1, Untouched.refl _⟩

end directory

section entries

/-- What `recurse` is to do for a directory. -/
abbrev Sprouts (c : Copier β UnixHost HostPath) (s₀ : FsState β) (recurse : Recurse β UnixHost) : Prop :=
  ∀ {b : UnixHost} {base : HostPath} {d : Nat} {x : Text}, b.walk base = some d → b.files.isDir d = true →
    UnixName x → (∀ n, b.files.lookup d x = some n → b.files.isDir n = false) → ∀ loc src rel,
    Ensures (c.Freely s₀ (Untouched b)) (recurse loc src rel (base ++ [x]))
      (fun _ => c.Freely s₀ (Sprouted d x b)) fun _ => c.Freely s₀ (Sprouted d x b)

variable {recurse : Recurse β UnixHost} (hrec : c.Sprouts s₀ recurse) {dest : HostPath} {b : UnixHost}
  {m : Nat} (hm : b.walk dest = some m) (hdir : b.files.isDir m = true) {taken : List Text}

include hc hp hforce hrec hm hdir

theorem copyEntry_fills {x : Text} (hx : UnixName x) (hnew : x ∉ taken) (hlast : ∀ y ∈ taken, y ≠ temporary x)
    (e : Entry) (dir : Loc) (src rel : Text) :
    Ensures (c.Freely s₀ (Filled b m taken)) (c.copyEntry recurse e dir src rel (dest ++ [x]))
      (fun _ => c.Freely s₀ (Filled b m (x :: taken))) fun _ => c.Freely s₀ (Filled b m (x :: taken)) := by
  have hmore (t : FsState β × Work UnixHost) (ht : c.Freely s₀ (Filled b m taken) t) :
      c.Freely s₀ (Filled b m (x :: taken)) t :=
    ⟨ht.1, ht.2.1, ht.2.2.later (Within.refl _ _) fun _ _ hn => .inl hn⟩
  refine Ensures.bind ((skips_freely e dir).mono (fun _ h => h) (fun _ _ h => h) fun _ t h => hmore t h)
    fun skip => ?_
  split_ifs with hskip
  · exact (report_freely _).mono (fun _ h => h) (fun _ t h => hmore t h) fun _ t h => hmore t h
  · refine Ensures.bind ((onFst_freely (Fs.inode_keeps e.loc)).mono (fun _ h => h) (fun _ _ h => h.1)
      fun _ t h => hmore t h) fun i => ?_
    split_ifs with hd
    · refine Ensures.of_start fun t ht => ?_
      have hf : Filled b m taken t.2.host := ht.2.2
      have hno : ∀ n, t.2.host.files.lookup m x = some n → t.2.host.files.isDir n = false := by
        intro n hn
        rcases hf.names x n hn with hz | ⟨-, hplain⟩
        · exact absurd hz hnew
        · exact hplain.2
      have hfills (u : FsState β × Work UnixHost) (hu : c.Freely s₀ (Sprouted m x t.2.host) u) :
          c.Freely s₀ (Filled b m (x :: taken)) u := by
        refine ⟨hu.1, hu.2.1, hf.later hu.2.2.within fun z n hn => ?_⟩
        exact (hu.2.2.names z n hn).imp_right .inl
      refine (hrec (hf.within.walk hm) (hf.within.grows.isDir hdir) hx hno e.loc src rel).mono (fun u hu => ?_)
        (fun _ u h => hfills u h) fun _ u h => hfills u h
      rw [hu]
      exact ⟨ht.1, ht.2.1, Untouched.refl _⟩
    · exact copyLeaf_fills hc hp hforce hm hx hnew hlast e.loc src

theorem tryEntry_fills {x : Text} (hx : UnixName x) (hnew : x ∉ taken) (hlast : ∀ y ∈ taken, y ≠ temporary x)
    (e : Entry) (dir : Loc) (src rel : Text) {E : Error → FsState β × Work UnixHost → Prop} :
    Ensures (c.Freely s₀ (Filled b m taken)) (c.tryEntry recurse e dir src rel (dest ++ [x]))
      (fun _ => c.Freely s₀ (Filled b m (x :: taken))) E := by
  refine (copyEntry_fills hc hp hforce hrec hm hdir hx hnew hlast e dir src rel).attempt.bind fun r => ?_
  cases r with
  | ok u => exact (record_freely rfl).bind fun _ => Ensures.pure fun _ h => h
  | error err => exact (record_freely rfl).bind fun _ => report_freely _

theorem copyOne_fills {e : Entry} {rel : Text}
    (hlast : ∀ x, c.give rel taken e = some x → ∀ y ∈ taken, y ≠ temporary x) (dir : Loc) (src : Text)
    {E : Error → FsState β × Work UnixHost → Prop} :
    Ensures (c.Freely s₀ (Filled b m taken)) (c.copyOne recurse dir src rel dest (e, taken))
      (fun _ => c.Freely s₀ (Filled b m (Naming.takenAfter (c.give rel) c.fold taken e))) E := by
  refine Ensures.bind (record_freely rfl) fun _ => ?_
  unfold Naming.takenAfter
  cases hgive : c.give rel taken e with
  | none => exact report_freely _
  | some x =>
    obtain ⟨-, hchosen⟩ := give_eq_some.mp hgive
    have hsafe : SafeName c.platform x := hchosen ▸ safeName_chosenName taken e
    have hfold : c.fold x = x := by simp [fold, hp]
    have hnew : x ∉ taken := by
      have := fold_chosenName (c := c) (fun hw => by simp [hp] at hw) taken e
      rwa [hchosen, hfold] at this
    have htry := tryEntry_fills hc hp hforce hrec hm hdir hsafe.unixName hnew (hlast x hgive) e dir
      (src ++ '/' :: e.nameLossy) (childRel rel e.nameLossy) (E := E)
    have hparent : (dest ++ [x]).parent = some dest := by simp [HostPath.parent]
    dsimp only
    rw [hsafe.join, hfold, hparent]
    split_ifs with hren hne hne
    · exact absurd rfl hne
    · exact (report_freely _).bind fun _ => htry
    · exact absurd rfl hne
    · exact htry

theorem copyEntries_fills (dir : Loc) (src rel : Text) : ∀ (es : List Entry) (taken : List Text),
    (∀ y ∈ taken, ∀ p ∈ Naming.given (c.give rel) c.fold taken es, y ≠ temporary p.2) →
    Orderly (Naming.given (c.give rel) c.fold taken es) →
    Ensures (c.Freely s₀ (Filled b m taken)) (c.copyEntries recurse dir src rel dest es taken)
      (fun _ => c.Freely s₀ (Within (FromHere b m) b)) fun _ => c.Freely s₀ (Within (FromHere b m) b)
  | [], _, _, _ => Ensures.pure fun t ht => ⟨ht.1, ht.2.1, ht.2.2.within⟩
  | e :: es, taken, hbefore, horder => by
    have hrest := copyEntries_fills dir src rel es (Naming.takenAfter (c.give rel) c.fold taken e)
    rw [copyEntries_eq] at hrest ⊢
    rw [Naming.turns_cons, forEach]
    refine Ensures.bind (copyOne_fills hc hp hforce hrec hm hdir (fun x hx => ?_) dir src) fun _ => ?_
    · rw [Naming.given_of_some hx] at hbefore
      exact fun y hy => hbefore y hy _ List.mem_cons_self
    cases hgive : c.give rel taken e with
    | none =>
      rw [Naming.given_of_none hgive] at hbefore horder
      rw [Naming.takenAfter, hgive] at hrest ⊢
      exact hrest hbefore horder
    | some x =>
      rw [Naming.given_of_some hgive] at hbefore horder
      rw [Naming.takenAfter, hgive] at hrest ⊢
      have hfold : c.fold x = x := by simp [fold, hp]
      obtain ⟨hlater, horder⟩ := List.pairwise_cons.mp horder
      refine hrest (fun y hy p hp' => ?_) horder
      rcases List.mem_cons.mp hy with rfl | hy
      · rw [hfold]
        exact hlater p hp'
      · exact hbefore y hy p (List.mem_cons_of_mem _ hp')

end entries

/-- In every directory that is read, no name is the temporary name of a later one. -/
def OrderlyNames (c : Copier β UnixHost HostPath) (s₀ : FsState β) : Prop :=
  ∀ dir es rel, c.fs.Sometime s₀ (c.fs.readdir dir) (· = es) → Orderly (c.hosts rel es)

section runs

variable (horderly : c.OrderlyNames s₀)

include hc hp hforce horderly

/-- What comes after a new directory is made. -/
theorem fillDir {recurse : Recurse β UnixHost} (hrec : c.Sprouts s₀ recurse) {dest : HostPath}
    {b : UnixHost} {m : Nat} (hm : b.walk dest = some m) (hdir : b.files.isDir m = true)
    (hempty : ∀ z, b.files.lookup m z = none) (dir : Loc) (src rel : Text) :
    Ensures (c.Freely s₀ (Untouched b)) (do
      record (.made dir dest)
      let es ← onFst (c.fs.readdir dir)
      record (.listed dir rel dest)
      c.copyEntries recurse dir src rel dest es []
      c.setMtime dir dest : CopyM β UnixHost Unit)
      (fun _ => c.Freely s₀ (Within (FromHere b m) b)) fun _ => c.Freely s₀ (Within (FromHere b m) b) := by
  have hstart (t : FsState β × Work UnixHost) (ht : c.Freely s₀ (Untouched b) t) :
      c.Freely s₀ (Filled b m []) t := by
    refine ⟨ht.1, ht.2.1, ht.2.2.within _, fun z n hn => ?_⟩
    rw [ht.2.2.files, hempty] at hn
    cases hn
  refine Ensures.mono ?_ hstart (fun _ _ h => h) fun _ _ h => h
  refine (record_freely rfl).bind fun _ => ?_
  refine Ensures.bind ((onFst_freely (Fs.readdir_keeps dir)).mono (fun _ h => h) (fun _ _ h => h)
    fun _ t ht => ⟨ht.1, ht.2.1, ht.2.2.within⟩) fun es => Ensures.fact fun hes => ?_
  refine (record_freely rfl).bind fun _ => ?_
  have hentries := copyEntries_fills hc hp hforce hrec hm hdir dir src rel es []
    (fun _ hy => absurd hy List.not_mem_nil) (horderly dir es rel hes)
  refine hentries.bind fun _ => ?_
  have hsited : Sited (FromHere b m) dest b := ⟨m, hm, hdir, .inl rfl⟩
  exact freely_of_frame (setMtime_keeps (respects_log (c := c)) dir trivial)
    (setMtime_reading hc Within.deaf (fun sec nsec h h' hw hrun => hw.touch (hsited.within hw) hrun) dir)

theorem copyDirInner_sprouts {recurse : Recurse β UnixHost} (hrec : c.Sprouts s₀ recurse) :
    c.Sprouts s₀ (c.copyDirInner recurse) := by
  intro b base d x hd hdir hx hno loc src rel
  have henter : Ensures (c.Freely s₀ (Untouched b)) (c.enter loc src (base ++ [x]))
      (fun _ => c.Freely s₀ (Founded d x (base ++ [x]) b)) fun _ => c.Freely s₀ (Sprouted d x b) := by
    have hs : b.spot (base ++ [x]) = some (d, x) := (spot_concat hx.ne_dots).mpr ⟨hd, hdir, rfl⟩
    have hsize := size_of_isDir hdir
    refine freely_of_frame (enter_keeps (respects_log (c := c)) loc src trivial)
      (enter_ensures hc Founded.deaf
        (fun h hf => hf.sprouted hsize (Nat.le_refl _) (Within.refl _ _)) (fun _ hu => hu.sprouted)
        (fun hlink => ?_) loc src)
    rw [List.length_append]
    refine (createDirAll_founds hx.ne_dots hd hdir fun n hn => ⟨hno n hn, hlink n ?_⟩).mono (fun _ h => h)
      (fun _ _ h => h) fun _ h hu => hu.sprouted
    rw [find_concat hx.ne_dots, hs, Option.bind_some, hn]
  refine henter.attempt.bind fun r => ?_
  cases r with
  | error e => exact (record_freely rfl).bind fun _ => Ensures.throw fun _ h => h
  | ok u =>
    refine Ensures.of_start fun t ht => ?_
    obtain ⟨m, hsize, hm, hmdir, hempty⟩ := ht.2.2.empty
    have hsprout (u : FsState β × Work UnixHost) (hu : c.Freely s₀ (Within (FromHere t.2.host m) t.2.host) u) :
        c.Freely s₀ (Sprouted d x b) u :=
      ⟨hu.1, hu.2.1, ht.2.2.sprouted (size_of_isDir hdir) hsize hu.2.2⟩
    refine (fillDir hc hp hforce horderly hrec hm hmdir hempty loc src rel).mono (fun u hu => ?_)
      (fun _ u h => hsprout u h) fun _ u h => hsprout u h
    rw [hu]
    exact ⟨ht.1, ht.2.1, Untouched.refl _⟩

omit hc hp hforce horderly in
/-- The ancestors have no part in it. -/
theorem copyDir_freely {left : Nat} {dir : Loc} {src rel : Text} {dest : HostPath}
    (h : Ensures (c.Freely s₀ P) (c.copyDirInner (c.copyDir left) dir src rel dest)
      (fun _ => c.Freely s₀ Q) fun _ => c.Freely s₀ Q) (hPQ : ∀ h, P h → Q h) :
    Ensures (c.Freely s₀ P) (c.copyDir (left + 1) dir src rel dest)
      (fun _ => c.Freely s₀ Q) fun _ => c.Freely s₀ Q := by
  have hless (t : FsState β × Work UnixHost) (ht : c.Freely s₀ P t) : c.Freely s₀ Q t :=
    ⟨ht.1, ht.2.1, hPQ _ ht.2.2⟩
  refine (record_freely rfl).bind fun _ => ?_
  refine Ensures.bind (Ensures.get (Q := fun _ => c.Freely s₀ P) fun _ h => h) fun w => ?_
  refine Ensures.bind ((Keeps.lift _).mono (fun _ h => h) (fun _ _ h => h) fun _ t ht => hless t ht) fun _ => ?_
  refine Ensures.bind (Q := fun _ => c.Freely s₀ P) (fun _ ht => ht) fun _ => ?_
  refine h.attempt.bind fun r => ?_
  refine Ensures.bind (Q := fun _ => c.Freely s₀ Q) (fun _ ht => ?_) fun _ => Keeps.lift r
  cases r <;> exact ht

theorem copyDir_sprouts : ∀ left, c.Sprouts s₀ (c.copyDir left)
  | 0 => fun _ _ _ _ _ _ _ =>
    (record_freely rfl).bind fun _ => Ensures.throw fun _ ht => ⟨ht.1, ht.2.1, ht.2.2.sprouted⟩
  | left + 1 => fun hd hdir hx hno loc src rel =>
    copyDir_freely (copyDirInner_sprouts hc hp hforce horderly (copyDir_sprouts left) hd hdir hx hno loc src rel)
      fun _ hu => hu.sprouted

/-- To an empty directory. -/
theorem copy_freely {dest : HostPath} (hdest : dest ≠ []) {b : UnixHost} {m : Nat} (hm : b.walk dest = some m)
    (hdir : b.files.isDir m = true) (hempty : ∀ z, b.files.lookup m z = none) (src : Loc) (srcPath : Text) :
    Ensures (c.Freely s₀ (Untouched b)) (c.copy src srcPath dest)
      (fun _ t => TemporariesFree t.2.log) fun _ t => TemporariesFree t.2.log := by
  refine Ensures.bind ((onFst_freely (Fs.inode_keeps src)).mono (fun _ h => h) (fun _ _ h => h.1)
    fun _ t ht => ht.1) fun i => ?_
  split_ifs with hd
  · have henter : Ensures (c.Freely s₀ (Untouched b)) (c.enter src (srcPath.rdropWhile (· = '/')) dest)
        (fun _ => c.Freely s₀ (Untouched b)) fun _ => c.Freely s₀ (Untouched b) :=
      freely_of_frame (enter_keeps (respects_log (c := c)) src _ trivial)
        (enter_ensures hc Untouched.deaf (fun _ h => h) (fun _ h => h)
          (fun _ => createDirAll_there _ hm) src _)
    have hinner : Ensures (c.Freely s₀ (Untouched b))
        (c.copyDirInner (c.copyDir MAX_DEPTH) src (srcPath.rdropWhile (· = '/')) [] dest)
        (fun _ => c.Freely s₀ (Within (FromHere b m) b)) fun _ => c.Freely s₀ (Within (FromHere b m) b) := by
      refine henter.attempt.bind fun r => ?_
      cases r with
      | error e =>
        exact (record_freely rfl).bind fun _ => Ensures.throw fun t ht => ⟨ht.1, ht.2.1, ht.2.2.within _⟩
      | ok u =>
        exact fillDir hc hp hforce horderly (copyDir_sprouts hc hp hforce horderly MAX_DEPTH) hm hdir hempty
          src _ []
    exact (copyDir_freely hinner fun _ hu => hu.within _).mono (fun _ h => h) (fun _ _ h => h.1) fun _ _ h => h.1
  · have hlook : Ensures (c.Freely s₀ (Untouched b))
        (attempt (onSnd (hostCall hostError (c.host.isDir dest))))
        (fun r t => c.Freely s₀ (Untouched b) t ∧ r = .ok true) fun _ t => TemporariesFree t.2.log := by
      rw [hc]
      intro t ht
      have hthere : t.2.host.isDir dest = true := by
        rw [UnixHost.isDir, ht.2.2.walk, hm, ht.2.2.files]
        exact hdir
      have hrun : attempt (onSnd (hostCall hostError (unixHost.isDir dest))) t = .ok (.ok true) t := by
        simp [attempt, onSnd, hostCall, unixHost, hdest, hthere]
      rw [hrun]
      exact ⟨ht, rfl⟩
    refine hlook.bind fun r => Ensures.fact fun hr => ?_
    rw [hr]
    have hsafe := safeName_hostName c.platform (srcPath.rtakeWhile (· ≠ '/'))
    dsimp only
    rw [hsafe.join]
    have hleaf (x : Text) (hx : UnixName x) : Ensures (c.Freely s₀ (Filled b m [])) (c.copyLeaf src srcPath (dest ++ [x]))
        (fun _ => c.Freely s₀ (Filled b m [x])) fun _ => c.Freely s₀ (Filled b m [x]) :=
      copyLeaf_fills hc hp hforce hm hx List.not_mem_nil (fun _ hy => absurd hy List.not_mem_nil) src srcPath
    refine (hleaf _ hsafe.unixName).mono (fun t ht => ⟨ht.1, ht.2.1, ht.2.2.within _, fun z n hn => ?_⟩) (fun _ _ h => h.1)
      fun _ _ h => h.1
    rw [ht.2.2.files, hempty] at hn
    cases hn

end runs

end unix

/-- Where in every directory no name that is given is the temporary name of a later one, copying
to an empty directory finds each temporary name free, whatever fails. -/
theorem copy_free {c : Copier β UnixHost HostPath} (hc : c.host = unixHost) (hp : c.platform.windows = false)
    (hforce : c.opts.force = false) (src : Loc) (srcPath : Text) {dest : HostPath} (hdest : dest ≠ [])
    {s : FsState β} (horderly : c.OrderlyNames s) {host : UnixHost} {d : Nat} (hd : host.walk dest = some d)
    (hdir : host.files.isDir d = true) (hempty : ∀ x, host.files.lookup d x = none) :
    TemporariesFree (c.copied src srcPath dest s host).log :=
  (copy_freely hc hp hforce horderly hdest hd hdir hempty src srcPath).state
    (T := fun t => TemporariesFree t.2.log) (s := (s, Work.start host))
    ⟨fun _ he => absurd he List.not_mem_nil, .refl, Untouched.refl host⟩

/-! ## Names that need no change -/

/-- No name has to be changed for the host, and none is listed twice. -/
structure Clean (p : Platform) (es : List Entry) : Prop where
  safe : ∀ e ∈ es, SafeName p e.nameLossy
  text : ∀ e ∈ es, Utf8.toUtf8 e.nameLossy = e.name
  distinct : (es.map Entry.name).Nodup

/-- Then each is given its own name. -/
theorem given_clean {c : Copier β UnixHost HostPath} (hp : c.platform.windows = false) (rel : Text) :
    ∀ {es : List Entry} {taken : List Text}, (∀ e ∈ es, SafeName c.platform e.nameLossy) →
      (es.map Entry.nameLossy).Nodup → (∀ e ∈ es, e.nameLossy ∉ taken) →
      ((Naming.given (c.give rel) c.fold taken es).map Prod.fst).Sublist es ∧
        ∀ p ∈ Naming.given (c.give rel) c.fold taken es, p.2 = p.1.nameLossy := by
  intro es
  induction es with
  | nil => intro taken _ _ _; exact ⟨List.Sublist.refl _, fun _ hp' => absurd hp' List.not_mem_nil⟩
  | cons e es ih =>
    intro taken hsafe hnodup hfree
    have hfold (x : Text) : c.fold x = x := by simp [fold, hp]
    obtain ⟨hnot, hnodup⟩ := List.nodup_cons.mp hnodup
    have hsafe' := fun e he => hsafe e (List.mem_cons_of_mem _ he)
    have hfree' := fun e he => hfree e (List.mem_cons_of_mem _ he)
    cases hgive : c.give rel taken e with
    | none =>
      rw [Naming.given_of_none hgive]
      obtain ⟨hsub, hname⟩ := ih hsafe' hnodup hfree'
      exact ⟨hsub.cons _, hname⟩
    | some x =>
      have hx : x = e.nameLossy := by
        obtain ⟨-, rfl⟩ := give_eq_some.mp hgive
        refine chosenName_of_safe (hsafe e List.mem_cons_self) ?_
        rw [hfold]
        exact hfree e List.mem_cons_self
      rw [Naming.given_of_some hgive, hfold]
      obtain ⟨hsub, hname⟩ := @ih (x :: taken) hsafe' hnodup fun e' he' hmem => by
        rcases List.mem_cons.mp hmem with heq | hmem
        · exact hnot (List.mem_map.mpr ⟨e', he', heq.trans hx⟩)
        · exact hfree' e' he' hmem
      refine ⟨hsub.cons_cons _, fun p hp' => ?_⟩
      rcases List.mem_cons.mp hp' with rfl | hp'
      · exact hx
      · exact hname p hp'

/-- A name comes before its temporary name. -/
theorem orderly_of_clean {c : Copier β UnixHost HostPath} (hp : c.platform.windows = false) {es : List Entry}
    (hclean : Clean c.platform es) (hsorted : es.Pairwise byName) (rel : Text) : Orderly (c.hosts rel es) := by
  have hnodup : (es.map Entry.nameLossy).Nodup := by
    refine List.Nodup.of_map Utf8.toUtf8 ?_
    have hnames : (es.map Entry.nameLossy).map Utf8.toUtf8 = es.map Entry.name := by
      rw [List.map_map]
      exact List.map_congr_left hclean.text
    rw [hnames]
    exact hclean.distinct
  have hnone : ∀ e ∈ es, e.nameLossy ∉ ([] : List Text) := fun _ _ => List.not_mem_nil
  obtain ⟨hsub, hname⟩ := given_clean hp rel hclean.safe hnodup hnone
  have hbefore := List.pairwise_map.mp (hsorted.sublist hsub)
  refine hbefore.imp_of_mem fun {a b} ha hb hle heq => ?_
  have hmem {p : Entry × Text} (hp' : p ∈ Naming.given (c.give rel) c.fold [] es) : p.1 ∈ es :=
    hsub.subset (List.mem_map_of_mem hp')
  have hlonger : a.1.name = b.1.name ++ Utf8.toUtf8 ".btrfs-peek-partial".toList := by
    rw [← hclean.text a.1 (hmem ha), ← hclean.text b.1 (hmem hb), ← hname a ha, heq, hname b hb, temporary]
    simp [Utf8.toUtf8]
  have hsame : b.1.name = b.1.name ++ Utf8.toUtf8 ".btrfs-peek-partial".toList :=
    List.le_antisymm List.le_append_left (hlonger ▸ show a.1.name ≤ b.1.name from hle)
  have hlen := congrArg List.length hsame
  rw [List.length_append] at hlen
  have hpos : (Utf8.toUtf8 ".btrfs-peek-partial".toList).length = 19 := by decide
  omega

theorem readdir_sorted {fs : Fs β} {dir : Loc} {es : List Entry}
    (h : fs.Sometime s₀ (fs.readdir dir) (· = es)) : es.Pairwise byName := by
  obtain ⟨t, a, -, hrun, rfl⟩ := h
  have hsort : Ensures (fun _ => True) (fs.readdir dir) (fun es _ => es.Pairwise byName) fun _ _ => True := by
    unfold Fs.readdir
    split_ifs with hp
    · exact Ensures.pure fun _ _ => List.Pairwise.nil
    · have hany {α : Type} (x : FsM β α) : Ensures (fun _ => True) x (fun _ _ => True) fun _ _ => True :=
        .of_outcomes (fun _ _ _ _ _ => trivial) fun _ _ _ _ _ => trivial
      have : Std.Total byName := ⟨fun a b => List.le_total a.name b.name⟩
      have : IsTrans Entry byName := ⟨fun _ _ _ h h' => List.le_trans h h'⟩
      exact (hany _).bind fun _ => (hany _).bind fun out => Ensures.pure fun _ _ =>
        List.pairwise_insertionSort byName out
  cases hx : fs.readdir dir t with
  | error e u =>
    rw [hx] at hrun
    cases hrun
  | ok es u =>
    rw [hx] at hrun
    cases hrun
    exact hsort.ok trivial hx

end Copier

namespace Image

/-- A directory of two files, `a` and `b`. -/
def lettered : List (Key × Bytes) := twoNamed [0x61] [0x62] 0o100644 1

/-- The state in which its blocks are cached. -/
def letteredState : FsState Unit := cachedLeaves (volumeLeaves lettered) ()

def letters : List Entry :=
  [⟨[0x61], ⟨FS_TREE_OBJECTID, 257⟩, 1, false⟩, ⟨[0x62], ⟨FS_TREE_OBJECTID, 258⟩, 1, false⟩]

/-- A copier of it onto a Unix host: the device is gone. -/
def unixGone : Copier Unit UnixHost HostPath := { unixCopier with fs := goneCopier.fs }

theorem stores_lettered : unixGone.fs.Stores (Cached (volumeLeaves lettered) (volume lettered)) (volume lettered) := by
  refine stores_leaves (S := [FS_TREE_OBJECTID]) ?_ (fun t => linked_volume) ?_ ?_ ?_ ?_
  all_goals decide +kernel

theorem tree_lettered {id : Nat} {r : TreeRoot} (h : (volume lettered).tree id = .ok r) :
    id = FS_TREE_OBJECTID := by
  by_contra hne
  have hnone : itemsOf rootTree id ROOT_ITEM_KEY = [] := by
    refine List.eq_nil_iff_forall_not_mem.mpr fun x hx => hne ?_
    obtain ⟨hmem, hobj, -⟩ := mem_itemsOf.mp hx
    rw [← hobj, List.mem_singleton.mp hmem]
  rw [Volume.tree, Volume.rootItem, show (volume lettered).roots = rootTree from rfl, hnone] at h
  cases h

/-- What is listed is both, or nothing is. -/
theorem readdir_lettered {dir : Loc} {es : List Entry} (h : (volume lettered).readdir dir = .ok es) :
    es = [] ∨ es = letters := by
  unfold Volume.readdir at h
  split_ifs at h with hp
  · exact .inl (Except.ok.inj h).symm
  · obtain ⟨r, hr, h⟩ := except_bind_ok.mp h
    have htree := tree_lettered hr
    by_cases hino : dir.ino = ROOT_DIR
    · right
      obtain ⟨tree, ino⟩ := dir
      obtain rfl : tree = FS_TREE_OBJECTID := htree
      obtain rfl : ino = ROOT_DIR := hino
      have hall : ((volume lettered).index ⟨FS_TREE_OBJECTID, ROOT_DIR⟩ >>= fun raw => do
          let out ← raw.mapM ((volume lettered).entry ⟨FS_TREE_OBJECTID, ROOT_DIR⟩)
          pure (out.insertionSort byName)) = .ok letters := by
        decide +kernel
      exact (Except.ok.inj (h.symm.trans hall))
    · left
      have hnone : itemsOf ((volume lettered).items dir.tree) dir.ino DIR_INDEX_KEY = [] := by
        refine List.eq_nil_iff_forall_not_mem.mpr fun x hx => ?_
        obtain ⟨hmem, hobj, hty, -⟩ := mem_itemsOf.mp hx
        have hall : ∀ x ∈ lettered, x.1.ty = DIR_INDEX_KEY → x.1.objectid = ROOT_DIR := by
          decide +kernel
        exact hino (hobj ▸ hall x hmem hty)
      rw [Volume.index, hnone] at h
      exact (Except.ok.inj h).symm

theorem clean_letters : Copier.Clean unixGone.platform letters := by
  have hsafe (name : Text) (h : hostName unixGone.platform name = name) : SafeName unixGone.platform name :=
    h ▸ safeName_hostName unixGone.platform name
  have hnames : ∀ e ∈ letters, hostName unixGone.platform e.nameLossy = e.nameLossy := by decide
  exact ⟨fun e he => hsafe _ (hnames e he), by decide, by decide⟩

theorem clean_lettered (dir : Loc) (es : List Entry)
    (h : unixGone.fs.Sometime letteredState (unixGone.fs.readdir dir) (· = es)) :
    Copier.Clean unixGone.platform es := by
  obtain ⟨t, a, ht, hrun, rfl⟩ := h
  have hcached := Fs.Lasting.of_gone rfl stores_lettered _ _ (cached_cachedLeaves _ _ ()) ht
  have hread : (volume lettered).readdir dir = .ok a := by
    by_cases hlinked : Fs.isPlaceholder dir ∨ dir.tree = FS_TREE_OBJECTID
    · have hyields : Yields _ (unixGone.fs.readdir dir) ((volume lettered).readdir dir) :=
        stores_lettered.readdir fun hp => hlinked.resolve_left hp ▸ .top
      rw [← hrun, hyields.value hcached]
    · -- There is no such tree.
      obtain ⟨hp, hne⟩ := not_or.mp hlinked
      cases hv : (volume lettered).tree dir.tree with
      | ok r => exact absurd (tree_lettered hv) hne
      | error e =>
        have hyields : Yields (Cached (volumeLeaves lettered) (volume lettered))
            (unixGone.fs.readdir dir) (.error e) := by
          have htree := stores_lettered.tree dir.tree
          rw [hv] at htree
          unfold Fs.readdir
          rw [if_neg hp]
          exact (htree.bind_error).bind_error
        rw [hyields.value hcached] at hrun
        cases hrun
  rcases readdir_lettered hread with rfl | rfl
  · exact ⟨fun _ he => absurd he List.not_mem_nil, fun _ he => absurd he List.not_mem_nil, List.nodup_nil⟩
  · exact clean_letters

/-- Both are copied to `d`, and a call fails. -/
def letteredCopied : Work UnixHost :=
  unixGone.copied ⟨FS_TREE_OBJECTID, ROOT_DIR⟩ ['/'] [['d']] letteredState (shelf fourth)

end Image

end BtrfsPeek
