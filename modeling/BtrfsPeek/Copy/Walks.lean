import BtrfsPeek.Copy.Limits
import BtrfsPeek.Copy.Reads
import BtrfsPeek.Copy.Trails

/-!
# What the walkers walk

On a well-formed filesystem a copy goes through the entries of a directory tree down to 257
directories, and counts what is deeper as failed (`Copier.copyDir_copied`). A search goes
down to 256. They see the same tree exactly where no directory is as deep as that
(`walkers_agree_iff`).
-/

namespace BtrfsPeek

open Effect

variable {β η φ : Type}

def Options.skips (o : Options) : Skips := ⟨o.oneSubvolume, o.noSnapshots⟩

/-- The error of what is too deep. -/
def tooDeep : Error := .msg s!"directory nesting deeper than {MAX_DEPTH}; the filesystem is corrupt"

def copyVisits (log : List (CopyEvent η)) : List (Loc × Entry) :=
  log.filterMap fun
    | .visited d _ e => some (d, e)
    | _ => none

/-- A directory was counted as failed for its depth. -/
def LeftOut (log : List (CopyEvent η)) (d : Loc) : Prop :=
  ∃ dir e src dest, .tried dir e src dest (.error tooDeep) ∈ log ∧ e.loc = d

/-- The host did not make a directory. -/
def Denied (log : List (CopyEvent η)) : Prop := ∃ d dest, .denied d dest ∈ log

/-- In the directories `path` these entries were gone through, and these directories left
out, unless the host did not make one. -/
def Went (path : List Loc) (visits : List (Loc × Entry)) (deep : List Loc) (w : Work η) : Prop :=
  Denied w.log ∨ w.ancestors = path ∧ copyVisits w.log = visits ∧ ∀ d ∈ deep, LeftOut w.log d

/-- That, while the filesystem reads the same. -/
def Copied (I : FsState β → Prop) (path : List Loc) (visits : List (Loc × Entry)) (deep : List Loc)
    (s : FsState β × Work η) : Prop := I s.1 ∧ Went path visits deep s.2

def CopyEvent.isDenied : CopyEvent η → Bool
  | .denied _ _ => true
  | _ => false

theorem not_denied {log : List (CopyEvent η)} (h : log.any CopyEvent.isDenied = false) : ¬ Denied log := by
  rintro ⟨d, dest, hmem⟩
  have hany : log.any CopyEvent.isDenied = true := List.any_eq_true.mpr ⟨_, hmem, rfl⟩
  rw [h] at hany
  cases hany

theorem Denied.append {log : List (CopyEvent η)} (h : Denied log) (more : List (CopyEvent η)) :
    Denied (log ++ more) := by
  obtain ⟨d, dest, hmem⟩ := h
  exact ⟨d, dest, List.mem_append_left _ hmem⟩

theorem LeftOut.append {log : List (CopyEvent η)} {d : Loc} (h : LeftOut log d)
    (more : List (CopyEvent η)) : LeftOut (log ++ more) d := by
  obtain ⟨dir, e, src, dest, hmem, he⟩ := h
  exact ⟨dir, e, src, dest, List.mem_append_left _ hmem, he⟩

/-- What is recorded. -/
theorem Went.record {path : List Loc} {visits more : List (Loc × Entry)} {deep : List Loc} {w : Work η}
    (h : Went path visits deep w) {ev : CopyEvent η} (hev : copyVisits [ev] = more) :
    Went path (visits ++ more) deep { w with log := w.log ++ [ev] } := by
  rcases h with hdenied | ⟨hpath, hvisits, hdeep⟩
  · exact .inl (hdenied.append _)
  · refine .inr ⟨hpath, ?_, fun d hd => (hdeep d hd).append _⟩
    show copyVisits (w.log ++ [ev]) = _
    rw [copyVisits, List.filterMap_append, ← hvisits, ← hev]
    rfl

/-- What is recorded and is no visit. -/
theorem Went.note {path : List Loc} {visits : List (Loc × Entry)} {deep : List Loc} {w : Work η}
    (h : Went path visits deep w) {ev : CopyEvent η} (hev : copyVisits [ev] = []) :
    Went path visits deep { w with log := w.log ++ [ev] } := by
  have hrecord := h.record hev
  rwa [List.append_nil] at hrecord

/-- What a tree starts at is a directory. -/
theorem Volume.Start.isDir {v : Volume} {X : Crates} {a : Loc} (h : v.Start X a) :
    ∃ i, v.inode a = .ok i ∧ i.isDir = true := by
  obtain ⟨r, hr, ha⟩ := h.under
  cases ha with
  | refl =>
    obtain ⟨t, ht, hr⟩ := except_bind_ok.mp hr
    cases hr
    obtain ⟨t', ht', hi⟩ := returns_iff.mp (h.wellFormed.tree _ .top).root
    rw [ht] at ht'
    cases ht'
    exact returns_iff.mp hi
  | @entry d e hd he hty =>
    obtain ⟨i, hi, hdir⟩ := inode_of_entry h.wellFormed (inside_of_under hr hd) he
    exact ⟨i, hi, hdir.mp hty⟩

namespace Copier

variable {c : Copier β η φ} {I : FsState β → Prop} {path : List Loc} {visits : List (Loc × Entry)}
  {deep : List Loc} {E : Error → FsState β × Work η → Prop}

theorem record_copied {more : List (Loc × Entry)} {ev : CopyEvent η} (hev : copyVisits [ev] = more) :
    Ensures (Copied I path visits deep) (record ev)
      (fun _ => Copied (β := β) I path (visits ++ more) deep) E :=
  fun _ hs => ⟨hs.1, hs.2.record hev⟩

/-- A record of what is no visit. -/
theorem note_copied {ev : CopyEvent η} (hev : copyVisits [ev] = []) :
    Ensures (Copied (β := β) I path visits deep) (record ev) (fun _ => Copied I path visits deep) E :=
  fun _ hs => ⟨hs.1, hs.2.note hev⟩

theorem report_copied (f : Report → Report) : Ensures (Copied (β := β) I path visits deep) (report f)
    (fun _ => Copied I path visits deep) E := fun _ hs => hs

/-- Neither the host nor what is reported has a part in it. -/
theorem respects_went : c.Respects (fun _ => True) (Went path visits deep) :=
  respects_of_frame c fun _ _ _ h => h

variable (hI : c.fs.Lasting I)

include hI

/-- What reads the filesystem, and has no part in what is gone through. -/
theorem copied_keeps {α : Type} {x : CopyM β η α} (hreads : ∀ s₀, Keeps (OfFs (c.fs.Later s₀)) x)
    (hwent : Keeps (OfWork (Went path visits deep)) x) : Keeps (Copied I path visits deep) x := by
  refine Ensures.of_state fun s hs => ⟨hI _ _ hs.1 ?_, hwent.state hs.2⟩
  exact (hreads s.1).state (Fs.Later.refl (s := s.1))

theorem copyLeaf_copied (loc : Loc) (src : Text) (dest : HostPath) :
    Keeps (Copied I path visits deep) (c.copyLeaf loc src dest) := by
  refine copied_keeps hI (fun _ => copyLeaf_reads loc src dest) ?_
  exact copyLeaf_keeps respects_went loc src (fun w hw => hw.note rfl) trivial trivial

theorem enter_copied (dir : Loc) (src : Text) (dest : HostPath) :
    Keeps (Copied I path visits deep) (c.enter dir src dest) :=
  copied_keeps hI (fun _ => enter_reads dir src dest) (enter_keeps respects_went dir src trivial)

theorem setMtime_copied (dir : Loc) (dest : HostPath) :
    Keeps (Copied I path visits deep) (c.setMtime dir dest) :=
  copied_keeps hI (fun _ => setMtime_reads dir dest) (setMtime_keeps respects_went dir trivial)

omit hI

/-! ## Entries -/

variable {v : Volume} {a : Loc} {n : Nat} {recurse : Recurse β η} {dir : Loc} {e : Entry}

/-- What is gone through below an entry. -/
def visitsBelow (c : Copier β η φ) (v : Volume) (n : Nat) (e : Entry) : List (Loc × Entry) :=
  if v.descends c.opts.skips e then (v.below c.opts.skips n e.loc).map Prod.snd else []

/-- The directories that are left out below an entry. -/
def deepBelow (c : Copier β η φ) (v : Volume) (n : Nat) (e : Entry) : List Loc :=
  if v.descends c.opts.skips e then (v.dirsAt c.opts.skips n e.loc).map Prod.snd else []

theorem below_succ_visits (n : Nat) (dir : Loc) : (v.below c.opts.skips (n + 1) dir).map Prod.snd =
    (v.entries dir).flatMap fun e => (dir, e) :: c.visitsBelow v n e := by
  rw [Volume.below, List.map_flatMap]
  apply List.flatMap_congr
  intro e _
  unfold visitsBelow
  split_ifs <;> simp [Function.comp_def]

theorem dirsAt_succ_deep (n : Nat) (dir : Loc) : (v.dirsAt c.opts.skips (n + 1) dir).map Prod.snd =
    (v.entries dir).flatMap (c.deepBelow v n) := by
  rw [Volume.dirsAt, List.map_flatMap]
  apply List.flatMap_congr
  intro e _
  unfold deepBelow
  split_ifs <;> simp [Function.comp_def]

/-- The state once it is recorded what came of an entry. -/
def noted (dir : Loc) (e : Entry) (src : Text) (dest : HostPath) (r : Except Error Unit)
    (s : FsState β × Work η) : FsState β × Work η :=
  (s.1, { s.2 with log := s.2.log ++ [.tried dir e src dest r] })

/-- A directory is copied with what is below it gone through, once that is recorded. -/
def Recurses (c : Copier β η φ) (I : FsState β → Prop) (v : Volume) (path : List Loc) (n : Nat)
    (recurse : Recurse β η) (dir : Loc) (e : Entry) : Prop :=
  v.descends c.opts.skips e = true → ∀ visits deep src rel dest,
    Ensures (Copied I path visits deep) (recurse e.loc src rel dest)
      (fun u s => Copied I path (visits ++ c.visitsBelow v n e) (deep ++ c.deepBelow v n e)
        (noted dir e src dest (.ok u) s))
      fun err s => Copied I path (visits ++ c.visitsBelow v n e) (deep ++ c.deepBelow v n e)
        (noted dir e src dest (.error err) s)

theorem noted_copied {s : FsState β × Work η} (h : Copied I path visits deep s) (dir : Loc) (e : Entry)
    (src : Text) (dest : HostPath) (r : Except Error Unit) :
    Copied I path visits deep (noted dir e src dest r s) :=
  ⟨h.1, h.2.note rfl⟩

section entries

variable (h : c.fs.Stores I v) (ha : v.Start c.fs.crates a)

include h ha

/-- Whether an entry is skipped is what the volume says, though a copy compares the trees. -/
theorem skips_copied (hdir : v.Under a dir) (he : e ∈ v.entries dir) :
    Ensures (Copied (η := η) I path visits deep) (c.skips e dir)
      (fun skip s => Copied I path visits deep s ∧ skip = v.skips c.opts.skips e) E := by
  have htree : e.subvol = true → ¬ Fs.isPlaceholder e.loc → e.loc.tree ≠ dir.tree := by
    intro hs hp
    obtain ⟨r, hr, hra⟩ := ha.under
    exact Volume.tree_ne_of_subvol hr hra ha.acyclic hdir he (Volume.ftype_of_subvol he hs) hs hp
  unfold skips Volume.skips
  by_cases hs : e.subvol = false ∨ Fs.isPlaceholder e.loc
  · rw [if_pos hs]
    refine Ensures.pure fun s hs' => ⟨hs', ?_⟩
    rcases hs with hs | hs
    · simp [hs]
    · simp [hs]
  · rw [if_neg hs]
    rw [not_or, Bool.not_eq_false] at hs
    have hne := htree hs.1 hs.2
    by_cases hone : c.opts.oneSubvolume = true
    · rw [if_pos ⟨hone, hne⟩]
      exact Ensures.pure fun s hs' => ⟨hs', by simp [hs, Options.skips, hone]⟩
    · rw [if_neg fun hboth => hone hboth.1]
      by_cases hno : c.opts.noSnapshots = true
      · rw [if_pos hno]
        obtain ⟨b, hb⟩ := v.isSnapshot_ok e.loc.tree
        rintro s ⟨hs', hwent⟩
        obtain ⟨s', hI', hrun⟩ := h.isSnapshot e.loc.tree s.1 hs'
        unfold onFst
        rw [hrun, hb]
        refine ⟨⟨hI', hwent⟩, ?_⟩
        cases b <;> simp [hs, Options.skips, hone, hno]
      · rw [if_neg hno]
        exact Ensures.pure fun s hs' => ⟨hs', by simp [Options.skips, hone, hno]⟩

include hI

/-- An entry is gone through as the volume says, if the directories below are. -/
theorem copyEntry_copied (hdir : v.Under a dir) (he : e ∈ v.entries dir)
    (hrec : c.Recurses I v path n recurse dir e) (src rel : Text) (dest : HostPath) :
    Ensures (Copied I path visits deep) (c.copyEntry recurse e dir src rel dest)
      (fun u s => Copied I path (visits ++ c.visitsBelow v n e) (deep ++ c.deepBelow v n e)
        (noted dir e src dest (.ok u) s))
      fun err s => Copied I path (visits ++ c.visitsBelow v n e) (deep ++ c.deepBelow v n e)
        (noted dir e src dest (.error err) s) := by
  have hnone (hd : ¬ v.descends c.opts.skips e = true) {x : CopyM β η Unit}
      (hx : Keeps (Copied I path visits deep) x) : Ensures (Copied I path visits deep) x
        (fun u s => Copied I path (visits ++ c.visitsBelow v n e) (deep ++ c.deepBelow v n e)
          (noted dir e src dest (.ok u) s))
        fun err s => Copied I path (visits ++ c.visitsBelow v n e) (deep ++ c.deepBelow v n e)
          (noted dir e src dest (.error err) s) := by
    rw [visitsBelow, deepBelow, if_neg hd, if_neg hd, List.append_nil, List.append_nil]
    exact hx.mono (fun _ hs => hs) (fun _ _ hs => noted_copied hs dir e src dest _)
      fun _ _ hs => noted_copied hs dir e src dest _
  refine (skips_copied h ha hdir he).bind fun skip => Ensures.fact fun hskip => ?_
  by_cases hs : skip = true
  · rw [if_pos hs]
    refine hnone ?_ (report_copied _)
    simp [Volume.descends, ← hskip, hs]
  · rw [if_neg hs]
    obtain ⟨i, hi, hdirType⟩ := Volume.inode_of_entry ha.wellFormed (ha.inside hdir) he
    have hloc : v.Inside e.loc := by
      obtain ⟨es, hes, hmem⟩ := Volume.mem_entries he
      exact (Volume.present_listed ha.wellFormed (ha.inside hdir) hes hmem).inside
    have hinode {E : Error → FsState β × Work η → Prop} : Ensures (Copied I path visits deep)
        (onFst (c.fs.inode e.loc)) (fun j s => Copied I path visits deep s ∧ j = i) E := by
      rintro s ⟨hs', hwent⟩
      obtain ⟨s', hI', hrun⟩ := h.inode hloc s.1 hs'
      unfold onFst
      rw [hrun, hi]
      exact ⟨⟨hI', hwent⟩, rfl⟩
    refine hinode.bind fun j => Ensures.fact fun hj => ?_
    rw [hj]
    have hdesc : v.descends c.opts.skips e = true ↔ i.isDir = true := by
      simp [Volume.descends, ← hskip, hs, hdirType]
    by_cases hd : i.isDir = true
    · rw [if_pos hd]
      exact hrec (hdesc.mpr hd) visits deep src rel dest
    · rw [if_neg hd]
      exact hnone (fun hd' => hd (hdesc.mp hd')) (copyLeaf_copied hI e.loc src dest)

/-- Whatever comes of an entry, what is below it was gone through. -/
theorem tryEntry_copied (hdir : v.Under a dir) (he : e ∈ v.entries dir)
    (hrec : c.Recurses I v path n recurse dir e) (src rel : Text) (dest : HostPath) :
    Ensures (Copied I path visits deep) (c.tryEntry recurse e dir src rel dest)
      (fun _ => Copied I path (visits ++ c.visitsBelow v n e) (deep ++ c.deepBelow v n e)) E := by
  refine (copyEntry_copied hI h ha hdir he hrec src rel dest).attempt.bind fun r => ?_
  have hrecord : Ensures (fun s => Copied I path (visits ++ c.visitsBelow v n e)
      (deep ++ c.deepBelow v n e) (noted dir e src dest r s)) (record (.tried dir e src dest r))
      (fun _ => Copied (β := β) I path (visits ++ c.visitsBelow v n e) (deep ++ c.deepBelow v n e)) E :=
    fun _ hs => hs
  cases r with
  | ok u => exact hrecord.bind fun _ => Ensures.pure fun _ hs => hs
  | error err =>
    exact hrecord.bind fun _ => report_copied _

/-- The entries of a directory, each under the name it is given, are gone through. -/
theorem copyEntries_copied (hex : ∀ t, c.opts.exclude t = false) (hdir : v.Under a dir) (src rel : Text) (dest : HostPath) :
    ∀ {es : List Entry} (taken : List Text) (visits : List (Loc × Entry)) (deep : List Loc),
      (∀ e ∈ es, e ∈ v.entries dir ∧ c.Recurses I v path n recurse dir e) →
      Ensures (Copied I path visits deep)
        (forEach (c.copyOne recurse dir src rel dest) (Naming.turns (c.give rel) c.fold taken es))
        (fun _ => Copied I path (visits ++ es.flatMap fun e => (dir, e) :: c.visitsBelow v n e)
          (deep ++ es.flatMap (c.deepBelow v n))) E
  | [], taken, visits, deep, _ => by
    rw [List.flatMap_nil, List.flatMap_nil, List.append_nil, List.append_nil]
    exact Ensures.pure fun _ hs => hs
  | e :: es, taken, visits, deep, hes => by
    obtain ⟨he, hrec⟩ := hes e List.mem_cons_self
    have hone : Ensures (Copied I path visits deep) (c.copyOne recurse dir src rel dest (e, taken))
        (fun _ => Copied I path (visits ++ [(dir, e)] ++ c.visitsBelow v n e)
          (deep ++ c.deepBelow v n e)) E := by
      have hgive : c.give rel taken e = some (c.chosenName taken e) := by
        rw [give, excludes, hex, hex]
        rfl
      have hsafe := safeName_chosenName (c := c) taken e
      have hparent : ¬ (dest.join c.platform (c.chosenName taken e)).parent ≠ some dest := by
        rw [hsafe.join]
        simp [HostPath.parent]
      refine (record_copied rfl).bind fun _ => ?_
      dsimp only
      rw [hgive]
      dsimp only
      rw [if_neg hparent]
      have htry : Ensures (Copied I path (visits ++ [(dir, e)]) deep) _ _ E :=
        tryEntry_copied hI h ha hdir he hrec (src ++ '/' :: e.nameLossy) (childRel rel e.nameLossy)
          (dest.join c.platform (c.chosenName taken e))
      split_ifs
      · exact (report_copied _).bind fun _ => htry
      · exact htry
    rw [Naming.turns_cons, forEach]
    refine hone.bind fun _ => ?_
    have hrest := @copyEntries_copied hex hdir src rel dest es
      (Naming.takenAfter (c.give rel) c.fold taken e) (visits ++ [(dir, e)] ++ c.visitsBelow v n e)
      (deep ++ c.deepBelow v n e) fun e he => hes e (List.mem_cons_of_mem _ he)
    rw [List.flatMap_cons, List.flatMap_cons, List.cons_append]
    simp only [List.append_assoc, List.singleton_append] at hrest ⊢
    exact hrest

theorem copyDirInner_copied (hex : ∀ t, c.opts.exclude t = false) (hdir : v.Under a dir)
    (hrec : ∀ e ∈ v.entries dir, c.Recurses I v path n recurse dir e) (src rel : Text) (dest : HostPath) :
    Ensures (Copied I path visits deep) (c.copyDirInner recurse dir src rel dest)
      (fun _ => Copied I path (visits ++ (v.below c.opts.skips (n + 1) dir).map Prod.snd)
        (deep ++ (v.dirsAt c.opts.skips (n + 1) dir).map Prod.snd))
      fun _ => Copied I path (visits ++ (v.below c.opts.skips (n + 1) dir).map Prod.snd)
        (deep ++ (v.dirsAt c.opts.skips (n + 1) dir).map Prod.snd) := by
  rw [below_succ_visits, dirsAt_succ_deep]
  refine (Ensures.attempt (enter_copied hI dir src dest)).bind fun r => ?_
  cases r with
  | error err =>
    intro s hs
    exact ⟨hs.1, .inl ⟨dir, dest, List.mem_append_right _ List.mem_cons_self⟩⟩
  | ok u =>
    refine (note_copied rfl).bind fun _ => ?_
    have hlist {E : Error → FsState β × Work η → Prop} : Ensures (Copied I path visits deep)
        (onFst (c.fs.readdir dir)) (fun es s => Copied I path visits deep s ∧ es = v.entries dir) E := by
      rintro s ⟨hs, hwent⟩
      obtain ⟨s', hI', hrun⟩ := h.readdir (ha.inside hdir) s.1 hs
      rw [Volume.entries_eq ha hdir] at hrun
      unfold onFst
      rw [hrun]
      exact ⟨⟨hI', hwent⟩, rfl⟩
    refine hlist.bind fun es => Ensures.fact fun hes => ?_
    refine (note_copied rfl).bind fun _ => ?_
    rw [copyEntries_eq, hes]
    have hall : ∀ e ∈ v.entries dir, e ∈ v.entries dir ∧ c.Recurses I v path n recurse dir e :=
      fun e he => ⟨he, hrec e he⟩
    exact (copyEntries_copied hI h ha hex hdir src rel dest [] visits deep hall).bind fun _ =>
      setMtime_copied hI dir dest

/-- A directory is copied with all that is less than `left + 1` levels down gone through, and
what is that deep left out. -/
theorem copyDir_copied (hex : ∀ t, c.opts.exclude t = false) {rank : Loc → Nat}
    (hrank : ∀ d, v.Under a d → ∀ e ∈ v.entries d, e.ftype = FT_DIR → rank e.loc < rank d) :
    ∀ {left : Nat} {path : List Loc} {dir : Loc}, v.Under a dir → (∀ d ∈ path, rank dir < rank d) →
      ∀ (visits : List (Loc × Entry)) (deep : List Loc) (src rel : Text) (dest : HostPath),
      Ensures (Copied I path visits deep) (c.copyDir (left + 1) dir src rel dest)
        (fun _ => Copied I path (visits ++ (v.below c.opts.skips (left + 1) dir).map Prod.snd)
          (deep ++ (v.dirsAt c.opts.skips (left + 1) dir).map Prod.snd))
        fun _ => Copied I path (visits ++ (v.below c.opts.skips (left + 1) dir).map Prod.snd)
          (deep ++ (v.dirsAt c.opts.skips (left + 1) dir).map Prod.snd) := by
  intro left
  -- From what is below to the directory.
  have hstep {left : Nat} {path : List Loc} {dir : Loc} (hdir : v.Under a dir)
      (hpath : ∀ d ∈ path, rank dir < rank d)
      (hrec : ∀ e ∈ v.entries dir, c.Recurses I v (dir :: path) left (c.copyDir left) dir e)
      (visits : List (Loc × Entry)) (deep : List Loc) (src rel : Text) (dest : HostPath) :
      Ensures (Copied I path visits deep) (c.copyDir (left + 1) dir src rel dest)
        (fun _ => Copied I path (visits ++ (v.below c.opts.skips (left + 1) dir).map Prod.snd)
          (deep ++ (v.dirsAt c.opts.skips (left + 1) dir).map Prod.snd))
        fun _ => Copied I path (visits ++ (v.below c.opts.skips (left + 1) dir).map Prod.snd)
          (deep ++ (v.dirsAt c.opts.skips (left + 1) dir).map Prod.snd) := by
    have hinner : Ensures (Copied I (dir :: path) visits deep) _ _ _ :=
      copyDirInner_copied hI h ha hex hdir hrec src rel dest
    refine Ensures.of_state fun s hs => ?_
    have hnot : s.2.ancestors = path → dir ∉ s.2.ancestors := by
      rintro rfl hmem
      exact Nat.lt_irrefl _ (hpath dir hmem)
    by_cases hmem : dir ∈ s.2.ancestors
    · rw [copyDir_loop hmem]
      exact ⟨hs.1, .inl ((hs.2.resolve_right fun hw => hnot hw.1 hmem).append _)⟩
    · rw [copyDir_run hmem rfl, state_done]
      have hnote : Went path visits deep { s.2 with log := s.2.log ++ [.entered dir rel] } :=
        hs.2.note rfl
      have hin : Copied I (dir :: path) visits deep (s.1, { s.2 with
          ancestors := dir :: s.2.ancestors, log := s.2.log ++ [.entered dir rel] }) :=
        ⟨hs.1, hnote.imp id fun hw => ⟨congrArg (dir :: ·) hw.1, hw.2⟩⟩
      have hout := hinner.state hin
      refine ⟨hout.1, hout.2.imp id fun hw => ⟨?_, hw.2⟩⟩
      show List.erase _ dir = path
      rw [hw.1, List.erase_cons_head]
  induction left with
  | zero =>
    intro path dir hdir hpath
    refine hstep hdir hpath fun e _ hd visits deep src rel dest => ?_
    rw [visitsBelow, deepBelow, if_pos hd, if_pos hd]
    intro s hs
    have hnote := (hs.2.note (show copyVisits [.entered e.loc rel] = [] from rfl)).note
      (show copyVisits [.tried dir e src dest (.error tooDeep)] = [] from rfl)
    refine ⟨hs.1, hnote.imp id fun hw => ⟨hw.1, ?_, fun d hd' => ?_⟩⟩
    · exact hw.2.1.trans (List.append_nil _).symm
    · rcases List.mem_append.mp hd' with hd' | hd'
      · exact hw.2.2 d hd'
      · obtain rfl := List.mem_singleton.mp hd'
        exact ⟨dir, e, src, dest, List.mem_append_right _ List.mem_cons_self, rfl⟩
  | succ left ih =>
    intro path dir hdir hpath
    refine hstep hdir hpath fun e he hd visits deep src rel dest => ?_
    rw [visitsBelow, deepBelow, if_pos hd, if_pos hd]
    have hty : e.ftype = FT_DIR := by
      unfold Volume.descends at hd
      rw [Bool.and_eq_true, decide_eq_true_eq] at hd
      exact hd.1
    have hlt : rank e.loc < rank dir := hrank dir hdir e he hty
    have hpath' : ∀ d ∈ dir :: path, rank e.loc < rank d := by
      intro d hd'
      rcases List.mem_cons.mp hd' with rfl | hd'
      · exact hlt
      · exact hlt.trans (hpath d hd')
    exact (ih (.entry hdir he hty) hpath' visits deep src rel dest).mono (fun _ hs => hs)
      (fun _ _ hs => noted_copied hs dir e _ _ _) fun _ _ hs => noted_copied hs dir e _ _ _

/-- Copying a directory goes through what is less than 257 levels down. -/
theorem copy_copied (hex : ∀ t, c.opts.exclude t = false) (src : Text) (dest : HostPath) :
    Ensures (Copied I [] visits deep) (c.copy a src dest)
      (fun _ => Copied I [] (visits ++ (v.below c.opts.skips (MAX_DEPTH + 1) a).map Prod.snd)
        (deep ++ (v.dirsAt c.opts.skips (MAX_DEPTH + 1) a).map Prod.snd))
      fun _ => Copied I [] (visits ++ (v.below c.opts.skips (MAX_DEPTH + 1) a).map Prod.snd)
        (deep ++ (v.dirsAt c.opts.skips (MAX_DEPTH + 1) a).map Prod.snd) := by
  obtain ⟨i, hi, hd⟩ := ha.isDir
  have hinode {E : Error → FsState β × Work η → Prop} : Ensures (Copied I [] visits deep)
      (onFst (c.fs.inode a)) (fun j s => Copied I [] visits deep s ∧ j = i) E := by
    rintro s ⟨hs, hwent⟩
    obtain ⟨s', hI', hrun⟩ := h.inode (ha.inside .refl) s.1 hs
    unfold onFst
    rw [hrun, hi]
    exact ⟨⟨hI', hwent⟩, rfl⟩
  obtain ⟨rank, hrank⟩ := ha.acyclic
  refine hinode.bind fun j => Ensures.fact fun hj => ?_
  rw [hj, if_pos hd]
  exact copyDir_copied hI h ha hex hrank .refl (fun _ hd => absurd hd List.not_mem_nil) visits deep _ _ _

end entries

end Copier

/-! ## The same tree -/

/-- Of a directory `a`, both walkers go through the same entries, each path once. A search
reports the directories that it leaves for their depth, as a copy does; and one that is
told how deep to go gives out what is looked for down to there. -/
structure SameTree (v : Volume) (k : Skips) (a : Loc) (path : Text) (copied : List (CopyEvent η))
    (search : FindQuery → FindWork) : Prop where
  visits : ∃ n, ((v.below k n a).map Prod.fst).Nodup ∧
    copyVisits copied = (v.below k n a).map Prod.snd ∧
    ∀ q : FindQuery, q.skips = k → q.maxDepth = none →
      visitsOf (search q).log = (v.below k n a).map Prod.snd
  reported : ∀ q : FindQuery, q.skips = k → q.maxDepth = none →
    ∀ x ∈ cutsOf (search q).log, ∃ err, (x.2, err) ∈ (search q).errors
  leftOut : ∀ x ∈ v.dirsAt k (MAX_DEPTH + 1) a, LeftOut copied x.2
  depth : ∀ (q : FindQuery) m, q.skips = k → q.maxDepth = some m →
    (search q).out = ((v.below k m a).filter fun x => q.isMatch x.2.2).map fun x => pathOf path x.1

theorem reach_all {q : FindQuery} (hq : q.maxDepth = none) : reach q MAX_FIND_DEPTH = MAX_FIND_DEPTH := by
  rw [reach, hq]
  rfl

section search

variable {fs : Fs β} {I : FsState β → Prop} {v : Volume} {a : Loc} (h : fs.Stores I v)
  (ha : v.Start fs.crates a)

include h ha

/-- What a whole search comes to. -/
theorem Fs.find_trail (q : FindQuery) (path : Text) {s : FsState β} (hs : I s) :
    Searched I [] (v.trail q path (reach q MAX_FIND_DEPTH) a)
      (Result.state (fs.find q MAX_FIND_DEPTH a path (s, FindWork.empty))) := by
  obtain ⟨rank, hrank⟩ := ha.acyclic
  have hrun := Fs.find_searched (q := q) h ha hrank (Nat.le_refl MAX_FIND_DEPTH) .refl
    (fun d hd => absurd hd List.not_mem_nil) .empty path
  exact (hrun.mono (fun _ hs => hs) (fun _ _ hs => hs) fun _ _ hs => hs.elim).state
    (s := (s, FindWork.empty)) ⟨hs, rfl, rfl, rfl, rfl, rfl⟩

/-- A search that reports what it leaves leaves nothing, for it reports nothing. -/
theorem SameTree.dirsAt_nil {k : Skips} {path : Text} {copied : List (CopyEvent η)} {s : FsState β}
    (hs : I s) (hsame : SameTree v k a path copied fun q =>
      (Result.state (fs.find q MAX_FIND_DEPTH a path (s, FindWork.empty))).2) :
    v.dirsAt k MAX_FIND_DEPTH a = [] := by
  let q : FindQuery := ⟨none, none, none, k.oneSubvolume, k.noSnapshots, false⟩
  have hsearched := Fs.find_trail h ha q path hs
  rw [List.eq_nil_iff_forall_not_mem]
  intro x hx
  have hcut : (x.2, pathOf path x.1) ∈
      cutsOf (Result.state (fs.find q MAX_FIND_DEPTH a path (s, FindWork.empty))).2.log := by
    rw [hsearched.cuts, reach_all rfl]
    exact List.mem_map_of_mem hx
  obtain ⟨err, herr⟩ := hsame.reported q rfl rfl _ hcut
  rw [hsearched.errors] at herr
  exact absurd herr List.not_mem_nil

end search

/-- If nothing is excluded, and the host makes every directory, the walkers see the same tree
if, and only if, no directory is 256 levels down. -/
theorem walkers_agree_iff {c : Copier β η φ} {I : FsState β → Prop} {v : Volume} {a : Loc}
    (h : c.fs.Stores I v) (hI : c.fs.Lasting I) (ha : v.Start c.fs.crates a)
    (hex : ∀ t, c.opts.exclude t = false)
    {s s' : FsState β} (hs : I s) (hs' : I s') (src path : Text) (dest : HostPath) (host : η)
    (hmade : ¬ Denied (Result.state (c.copy a src dest (s, Work.start host))).2.log) :
    SameTree v c.opts.skips a path (Result.state (c.copy a src dest (s, Work.start host))).2.log
      (fun q => (Result.state (c.fs.find q MAX_FIND_DEPTH a path (s', FindWork.empty))).2) ↔
    v.dirsAt c.opts.skips MAX_FIND_DEPTH a = [] := by
  refine ⟨fun hsame => hsame.dirsAt_nil h ha hs', fun hnone => ?_⟩
  have hstart : Copied I [] [] [] (s, Work.start host) :=
    ⟨hs, .inr ⟨rfl, rfl, fun _ hd => absurd hd List.not_mem_nil⟩⟩
  have hcopy := (Copier.copy_copied hI h ha hex src dest).state hstart
  obtain ⟨-, hvisits, hdeep⟩ := hcopy.2.resolve_left hmade
  have hfind (q : FindQuery) := Fs.find_trail h ha q path hs'
  have hbelow {m : Nat} (hm : MAX_FIND_DEPTH ≤ m) :
      v.below c.opts.skips m a = v.below c.opts.skips MAX_FIND_DEPTH a := Volume.below_of_dirsAt _ hnone hm
  refine ⟨⟨MAX_FIND_DEPTH, Volume.nodup_below ha.wellFormed _ _ (ha.inside .refl), ?_, ?_⟩, ?_, ?_, ?_⟩
  · rw [hvisits, List.nil_append, hbelow (show MAX_FIND_DEPTH ≤ MAX_DEPTH + 1 by decide)]
  · intro q hk hq
    rw [(hfind q).visits, reach_all hq, ← hk]
    rfl
  · intro q hk hq x hx
    rw [(hfind q).cuts, reach_all hq, Volume.trail, hk, hnone] at hx
    exact absurd hx List.not_mem_nil
  · intro x hx
    exact hdeep x.2 (List.mem_map_of_mem hx)
  · intro q m hk hq
    have hm : reach q MAX_FIND_DEPTH = min MAX_FIND_DEPTH m := by
      rw [reach, hq]
      rfl
    rw [(hfind q).out, hm, ← hk]
    rw [← hk] at hbelow
    rcases Nat.le_total m MAX_FIND_DEPTH with hle | hle
    · rw [Nat.min_eq_right hle]
      rfl
    · rw [Nat.min_eq_left hle, hbelow hle]
      rfl

namespace Image

/-- A directory `d` with a file `f` in it. -/
def nested : List (Key × Bytes) :=
  [(⟨ROOT_DIR, INODE_ITEM_KEY, 0⟩, inodeItem 0 0o40755),
    (⟨ROOT_DIR, DIR_ITEM_KEY, nameHash crates [0x64]⟩, dirItem 257 FT_DIR [0x64]),
    (⟨ROOT_DIR, DIR_INDEX_KEY, 2⟩, dirItem 257 FT_DIR [0x64]),
    (⟨257, INODE_ITEM_KEY, 0⟩, inodeItem 0 0o40755),
    (⟨257, DIR_ITEM_KEY, nameHash crates [0x66]⟩, dirItem 258 1 [0x66]),
    (⟨257, DIR_INDEX_KEY, 2⟩, dirItem 258 1 [0x66]),
    (⟨258, INODE_ITEM_KEY, 0⟩, inodeItem 0 0o100644)]

def nestedState : FsState Unit := cachedLeaves (volumeLeaves nested) ()

/-- Its items can be written, and are in order, and this is what is in the two directories. -/
theorem ok_nested : (∀ x ∈ volumeLeaves nested, SearchTree.Ascending x.2) ∧
    (∀ x ∈ volumeLeaves nested, (leaf x.1 x.2).length < 2 ^ 32) ∧
    (∀ x ∈ volumeLeaves nested, ∀ y ∈ x.2, y.1.Fits) ∧
    (volume nested).TreeOk crates FS_TREE_OBJECTID ∧
    (volume nested).entries ⟨FS_TREE_OBJECTID, ROOT_DIR⟩ =
      [⟨[0x64], ⟨FS_TREE_OBJECTID, 257⟩, FT_DIR, false⟩] ∧
    (volume nested).entries ⟨FS_TREE_OBJECTID, 257⟩ =
      [⟨[0x66], ⟨FS_TREE_OBJECTID, 258⟩, 1, false⟩] := by
  decide +kernel

theorem stores_nested : goneCopier.fs.Stores (Cached (volumeLeaves nested) (volume nested)) (volume nested) := by
  obtain ⟨hasc, hlen, hfit, -⟩ := ok_nested
  refine stores_leaves rfl (fun t => linked_volume) (fun t ht => ?_) hasc hlen hfit
  rw [List.mem_singleton.mp ht, tree_volume]
  rfl

theorem under_nested {d : Loc} (h : (volume nested).Under ⟨FS_TREE_OBJECTID, ROOT_DIR⟩ d) :
    d = ⟨FS_TREE_OBJECTID, ROOT_DIR⟩ ∨ d = ⟨FS_TREE_OBJECTID, 257⟩ := by
  obtain ⟨-, -, -, -, htop, hsub⟩ := ok_nested
  induction h with
  | refl => exact .inl rfl
  | entry _ he hty ih =>
    rcases ih with rfl | rfl
    · rw [htop, List.mem_singleton] at he
      rw [he]
      exact .inr rfl
    · rw [hsub, List.mem_singleton] at he
      rw [he] at hty
      exact absurd hty (by decide)

theorem start_nested : (volume nested).Start goneCopier.fs.crates ⟨FS_TREE_OBJECTID, ROOT_DIR⟩ := by
  obtain ⟨-, -, -, htree, htop, hsub⟩ := ok_nested
  refine ⟨wellFormed_volume htree, ⟨⟨FS_TREE_OBJECTID, ROOT_DIR⟩, ?_, .refl⟩, fun d => 257 - d.ino, ?_⟩
  · rw [Volume.root, tree_volume]
    rfl
  · intro d hd e he hty
    rcases under_nested hd with rfl | rfl
    · rw [htop, List.mem_singleton] at he
      rw [he]
      decide
    · rw [hsub, List.mem_singleton] at he
      rw [he] at hty
      exact absurd hty (by decide)

end Image

open Image in
/-- Both walkers go into the directory. -/
theorem walkers_agree_nested : SameTree (volume nested) ⟨false, false⟩
    ⟨FS_TREE_OBJECTID, ROOT_DIR⟩ ['/'] (Result.state (goneCopier.copy ⟨FS_TREE_OBJECTID, ROOT_DIR⟩ ['/']
      [['d']] (nestedState, Work.start ([], 0)))).2.log
    fun q => (Result.state (goneCopier.fs.find q MAX_FIND_DEPTH ⟨FS_TREE_OBJECTID, ROOT_DIR⟩ ['/']
      (nestedState, FindWork.empty))).2 := by
  have hs : Cached (volumeLeaves nested) (volume nested) nestedState := cached_cachedLeaves _ _ ()
  refine (walkers_agree_iff stores_nested (.of_gone rfl stores_nested) start_nested (fun _ => rfl) hs hs
    ['/'] ['/'] [['d']] ([], 0) (not_denied ?_)).mpr ?_
  · decide +kernel
  · decide +kernel

namespace Image

/-- A directory that holds one more, `a`, unless it is the last. -/
def link (i : Nat) : List (Key × Bytes) :=
  (⟨ROOT_DIR + i, INODE_ITEM_KEY, 0⟩, inodeItem 0 0o40755) ::
    if i < 256 then
      [(⟨ROOT_DIR + i, DIR_ITEM_KEY, nameHash crates [0x61]⟩, dirItem (ROOT_DIR + (i + 1)) FT_DIR [0x61]),
        (⟨ROOT_DIR + i, DIR_INDEX_KEY, 2⟩, dirItem (ROOT_DIR + (i + 1)) FT_DIR [0x61])]
    else []

/-- 257 directories, each in the one before. -/
def chain : List (Key × Bytes) := (List.range 257).flatMap link

theorem objectid_link {i : Nat} {x : Key × Bytes} (h : x ∈ link i) : x.1.objectid = ROOT_DIR + i := by
  unfold link at h
  split_ifs at h
  · simp only [List.mem_cons, List.not_mem_nil, or_false] at h
    rcases h with rfl | rfl | rfl <;> rfl
  · rw [List.mem_singleton.mp h]

/-- What is looked for of one directory is among its own items. -/
theorem inRange_chain {i : Nat} (hi : i < 257) {min max : Key} (hmin : min.objectid = ROOT_DIR + i)
    (hmax : max.objectid = ROOT_DIR + i) :
    SearchTree.inRange min max chain = SearchTree.inRange min max (link i) := by
  have hother {j : Nat} (hj : j ≠ i) : SearchTree.inRange min max (link j) = [] := by
    rw [SearchTree.inRange, List.filter_eq_nil_iff]
    intro x hx hin
    rw [decide_eq_true_eq, Key.le_def, Key.le_def, objectid_link hx, hmin, hmax] at hin
    omega
  have hall : ∀ n, SearchTree.inRange min max ((List.range n).flatMap link) =
      if i < n then SearchTree.inRange min max (link i) else [] := by
    intro n
    induction n with
    | zero => rfl
    | succ n ih =>
      have happend : SearchTree.inRange min max ((List.range (n + 1)).flatMap link) =
          SearchTree.inRange min max ((List.range n).flatMap link) ++ SearchTree.inRange min max (link n) := by
        rw [List.range_succ, List.flatMap_append, List.flatMap_singleton]
        exact List.filter_append ..
      rw [happend, ih]
      by_cases hn : n = i
      · subst hn
        simp
      · rw [hother hn, List.append_nil]
        have hiff : i < n ↔ i < n + 1 := by omega
        simp only [hiff]
  rw [chain, hall, if_pos hi]

theorem not_placeholder (ino : Nat) : ¬ Fs.isPlaceholder ⟨FS_TREE_OBJECTID, ino⟩ := by
  show ¬ FS_TREE_OBJECTID = 0
  decide

theorem inode_chain {i : Nat} (hi : i < 257) : (volume chain).inode ⟨FS_TREE_OBJECTID, ROOT_DIR + i⟩ =
    Inode.parse (inodeItem 0 0o40755) := by
  have hitem : itemAt chain ⟨ROOT_DIR + i, INODE_ITEM_KEY, 0⟩ = some (inodeItem 0 0o40755) := by
    rw [itemAt, inRange_chain hi rfl rfl]
    unfold link
    split_ifs <;> simp [SearchTree.inRange, Key.le_def, INODE_ITEM_KEY, DIR_ITEM_KEY, DIR_INDEX_KEY]
  rw [Volume.inode, if_neg (not_placeholder _), tree_volume]
  simp only [volume, hitem, bind, Except.bind]

/-- The entry of a directory of the chain. -/
def linkEntry (i : Nat) : DirEntry := ⟨[0x61], ⟨ROOT_DIR + (i + 1), INODE_ITEM_KEY, 0⟩, FT_DIR⟩

theorem parse_link {i : Nat} (hi : i < 256) :
    parseDirEntries (dirItem (ROOT_DIR + (i + 1)) FT_DIR [0x61]) = .ok [linkEntry i] := by
  have hroot : ROOT_DIR = 256 := rfl
  exact parse_dirItem (by omega) (by decide) (by decide)

/-- The inode of each of the directories. -/
theorem parse_inode_chain : ∃ d, Inode.parse (inodeItem 0 0o40755) = .ok d ∧
    d.isDir = true ∧ TypeAgrees FT_DIR d ∧ (d.isSymlink = true → d.size ≤ Fs.MAX_TARGET) :=
  returns_iff.mp (by decide +kernel)

theorem index_chain {i : Nat} (hi : i < 257) : (volume chain).index ⟨FS_TREE_OBJECTID, ROOT_DIR + i⟩ =
    .ok (if i < 256 then [linkEntry i] else []) := by
  show SearchTree.gather _ (itemsOf chain (ROOT_DIR + i) DIR_INDEX_KEY) = _
  rw [itemsOf, inRange_chain hi rfl rfl]
  unfold link
  split_ifs with hlast
  · have hone : SearchTree.inRange (Key.mk (ROOT_DIR + i) DIR_INDEX_KEY 0)
        (Key.mk (ROOT_DIR + i) DIR_INDEX_KEY U64_MAX)
        [(Key.mk (ROOT_DIR + i) INODE_ITEM_KEY 0, inodeItem 0 0o40755),
          (Key.mk (ROOT_DIR + i) DIR_ITEM_KEY (nameHash crates [0x61]),
            dirItem (ROOT_DIR + (i + 1)) FT_DIR [0x61]),
          (Key.mk (ROOT_DIR + i) DIR_INDEX_KEY 2, dirItem (ROOT_DIR + (i + 1)) FT_DIR [0x61])] =
        [(Key.mk (ROOT_DIR + i) DIR_INDEX_KEY 2, dirItem (ROOT_DIR + (i + 1)) FT_DIR [0x61])] := by
      simp [SearchTree.inRange, Key.le_def, INODE_ITEM_KEY, DIR_ITEM_KEY, DIR_INDEX_KEY, U64_MAX]
    rw [hone, SearchTree.gather, parse_link hlast]
    rfl
  · simp [SearchTree.inRange, Key.le_def, INODE_ITEM_KEY, DIR_INDEX_KEY, SearchTree.gather]

theorem hashed_chain {i : Nat} (hi : i < 256) :
    (volume chain).hashed ⟨FS_TREE_OBJECTID, ROOT_DIR + i⟩ (nameHash crates [0x61]) = .ok [linkEntry i] := by
  have hitem : itemAt chain ⟨ROOT_DIR + i, DIR_ITEM_KEY, nameHash crates [0x61]⟩ =
      some (dirItem (ROOT_DIR + (i + 1)) FT_DIR [0x61]) := by
    rw [itemAt, inRange_chain (by omega) rfl rfl, link, if_pos hi]
    simp [SearchTree.inRange, Key.le_def, INODE_ITEM_KEY, DIR_ITEM_KEY, DIR_INDEX_KEY]
  simp only [Volume.hashed, volume, hitem]
  exact parse_link hi

theorem entries_chain {i : Nat} (hi : i < 257) :
    (volume chain).entries ⟨FS_TREE_OBJECTID, ROOT_DIR + i⟩ =
      if i < 256 then [⟨[0x61], ⟨FS_TREE_OBJECTID, ROOT_DIR + (i + 1)⟩, FT_DIR, false⟩] else [] := by
  rw [Volume.entries, Volume.readdir, if_neg (not_placeholder _), tree_volume,
    index_chain hi]
  split_ifs <;> rfl

/-- Each item is of some directory. -/
theorem exists_of_mem_chain {x : Key × Bytes} (h : x ∈ chain) : ∃ i < 257, x ∈ link i := by
  obtain ⟨i, hi, hx⟩ := List.mem_flatMap.mp h
  exact ⟨i, List.mem_range.mp hi, hx⟩

theorem isDir_chain {i : Nat} (hi : i < 257) : ∃ d,
    (volume chain).inode ⟨FS_TREE_OBJECTID, ROOT_DIR + i⟩ = .ok d ∧ d.isDir = true ∧ TypeAgrees FT_DIR d := by
  obtain ⟨d, hd, hdir, hagrees, -⟩ := parse_inode_chain
  exact ⟨d, (inode_chain hi).trans hd, hdir, hagrees⟩

theorem dirOk_chain {i : Nat} (hi : i < 256) :
    (volume chain).DirOk crates ⟨FS_TREE_OBJECTID, ROOT_DIR + i⟩ := by
  have hindex := index_chain (show i < 257 by omega)
  rw [if_pos hi] at hindex
  obtain ⟨d, hd, hdir, -⟩ := isDir_chain (show i < 257 by omega)
  obtain ⟨d', hd', -, hagrees⟩ := isDir_chain (show i + 1 < 257 by omega)
  constructor
  · rw [hd]
    exact hdir
  · rw [hindex]
    exact List.nodup_singleton _
  · rw [hindex]
    refine List.forall_mem_singleton.mpr (Or.inl ⟨rfl, ?_⟩)
    show Returns ((volume chain).inode ⟨FS_TREE_OBJECTID, ROOT_DIR + (i + 1)⟩) (TypeAgrees FT_DIR)
    rw [hd']
    exact hagrees
  · rw [hindex]
    refine List.forall_mem_singleton.mpr ?_
    show Returns ((volume chain).hashed ⟨FS_TREE_OBJECTID, ROOT_DIR + i⟩ (nameHash crates [0x61])) _
    rw [hashed_chain hi]
    exact List.mem_singleton_self _

/-- What an item of a directory of the chain holds. -/
theorem data_link {i : Nat} {x : Key × Bytes} (h : x ∈ link i) :
    (x.1.ty = INODE_ITEM_KEY ∧ x.2 = inodeItem 0 0o40755) ∨
      ((x.1.ty = DIR_ITEM_KEY ∧ x.1.offset = nameHash crates [0x61] ∨ x.1.ty = DIR_INDEX_KEY) ∧
        i < 256 ∧ x.2 = dirItem (ROOT_DIR + (i + 1)) FT_DIR [0x61]) := by
  unfold link at h
  split_ifs at h with hi
  · simp only [List.mem_cons, List.not_mem_nil, or_false] at h
    rcases h with rfl | rfl | rfl
    · exact .inl ⟨rfl, rfl⟩
    · exact .inr ⟨.inl ⟨rfl, rfl⟩, hi, rfl⟩
    · exact .inr ⟨.inr rfl, hi, rfl⟩
  · rw [List.mem_singleton.mp h]
    exact .inl ⟨rfl, rfl⟩

theorem treeOk_chain : (volume chain).TreeOk crates FS_TREE_OBJECTID := by
  obtain ⟨d, hd, hdir, -⟩ := isDir_chain (show 0 < 257 by omega)
  rw [Nat.add_zero] at hd
  constructor
  · simp only [tree_volume, Returns, hd, hdir]
  · intro x hx hty
    obtain ⟨i, -, hx⟩ := exists_of_mem_chain hx
    rcases data_link hx with ⟨hinode, -⟩ | ⟨-, hi, -⟩
    · rw [hty] at hinode
      exact absurd hinode (by decide)
    · rw [objectid_link hx]
      exact dirOk_chain hi
  · intro x hx hty
    obtain ⟨i, hlt, hx⟩ := exists_of_mem_chain hx
    rcases data_link hx with ⟨hinode, -⟩ | ⟨hhash, hi, hdata⟩
    · rw [hty] at hinode
      exact absurd hinode (by decide)
    have hoffset : x.1.offset = nameHash crates [0x61] := by
      rcases hhash with ⟨-, hoffset⟩ | hindex
      · exact hoffset
      · rw [hty] at hindex
        exact absurd hindex (by decide)
    have hindex := index_chain hlt
    rw [if_pos hi] at hindex
    rw [hdata, objectid_link hx, hoffset, parse_link hi]
    show Returns ((volume chain).index ⟨FS_TREE_OBJECTID, ROOT_DIR + i⟩) _
    rw [hindex]
    exact List.forall_mem_singleton.mpr ⟨List.mem_singleton_self _, rfl⟩
  · intro x hx hty
    obtain ⟨i, -, hx⟩ := exists_of_mem_chain hx
    rcases data_link hx with ⟨-, hdata⟩ | ⟨⟨hitem, -⟩ | hindex, -⟩
    · obtain ⟨d, hd, -, -, hsize⟩ := parse_inode_chain
      rw [hdata, hd]
      exact hsize
    · rw [hty] at hitem
      exact absurd hitem (by decide)
    · rw [hty] at hindex
      exact absurd hindex (by decide)
  · intro x hx hty
    obtain ⟨i, -, hx⟩ := exists_of_mem_chain hx
    rcases data_link hx with ⟨hinode, -⟩ | ⟨⟨hitem, -⟩ | hindex, -⟩
    · rw [hty] at hinode
      exact absurd hinode (by decide)
    · rw [hty] at hitem
      exact absurd hitem (by decide)
    · rw [hty] at hindex
      exact absurd hindex (by decide)

theorem ascending_chain : SearchTree.Ascending chain := by
  refine List.pairwise_flatMap.mpr ⟨fun i _ => ?_, List.pairwise_lt_range.imp ?_⟩
  · unfold link
    split_ifs <;> simp [Key.lt_def, INODE_ITEM_KEY, DIR_ITEM_KEY, DIR_INDEX_KEY]
  · intro i j hij x hx y hy
    rw [Key.lt_def, objectid_link hx, objectid_link hy]
    omega

theorem fits_chain : ∀ x ∈ chain, x.1.Fits := by
  have hhash : nameHash crates [0x61] < 2 ^ 64 := by decide
  intro x hx
  obtain ⟨i, hi, hx⟩ := exists_of_mem_chain hx
  unfold link at hx
  split_ifs at hx
  · simp only [List.mem_cons, List.not_mem_nil, or_false] at hx
    rcases hx with rfl | rfl | rfl <;>
      simp [Key.Fits, ROOT_DIR, INODE_ITEM_KEY, DIR_ITEM_KEY, DIR_INDEX_KEY] <;> omega
  · rw [List.mem_singleton.mp hx]
    simp [Key.Fits, ROOT_DIR, INODE_ITEM_KEY] 
    omega

theorem length_itemData_le {n : Nat} {xs : List (Key × Bytes)} (h : ∀ x ∈ xs, x.2.length ≤ n) :
    (itemData xs).length ≤ n * xs.length := by
  induction xs with
  | nil => exact Nat.zero_le _
  | cons x xs ih =>
    obtain ⟨hx, hxs⟩ := List.forall_mem_cons.mp h
    have := ih hxs
    simp only [itemData, List.length_append, List.length_cons, Nat.mul_succ]
    omega

theorem length_chain : (leaf FS_TREE chain).length < 2 ^ 32 := by
  have hdata : ∀ x ∈ chain, x.2.length ≤ 160 := by
    intro x hx
    obtain ⟨i, -, hx⟩ := exists_of_mem_chain hx
    rcases data_link hx with ⟨-, hdata⟩ | ⟨-, -, hdata⟩
    · rw [hdata]
      simp [inodeItem, zeros]
    · rw [hdata]
      simp [dirItem, KEY_SIZE, zeros]
  have hlength : chain.length = 769 := by decide +kernel
  have hle := length_itemData_le hdata
  simp only [leaf, List.length_append, length_header, length_itemHeads, hlength, HEADER_SIZE] at hle ⊢
  omega

theorem stores_chain : (fs []).Stores (Cached (volumeLeaves chain) (volume chain)) (volume chain) :=
  stores_volume ascending_chain length_chain fits_chain

/-- The state in which its blocks are cached. -/
def chainState : FsState Unit := cachedLeaves (volumeLeaves chain) ()

theorem under_chain {d : Loc} (h : (volume chain).Under ⟨FS_TREE_OBJECTID, ROOT_DIR⟩ d) :
    ∃ i < 257, d = ⟨FS_TREE_OBJECTID, ROOT_DIR + i⟩ := by
  induction h with
  | refl => exact ⟨0, by omega, rfl⟩
  | entry _ he _ ih =>
    obtain ⟨i, hi, rfl⟩ := ih
    rw [entries_chain hi] at he
    split_ifs at he with hlast
    · rw [List.mem_singleton.mp he]
      exact ⟨i + 1, by omega, rfl⟩
    · exact absurd he List.not_mem_nil

theorem start_chain : (volume chain).Start crates ⟨FS_TREE_OBJECTID, ROOT_DIR⟩ := by
  refine ⟨wellFormed_volume treeOk_chain, ⟨⟨FS_TREE_OBJECTID, ROOT_DIR⟩, ?_, .refl⟩,
    fun d => ROOT_DIR + 256 - d.ino, ?_⟩
  · rw [Volume.root, tree_volume]
    rfl
  · intro d hd e he _
    obtain ⟨i, hi, rfl⟩ := under_chain hd
    rw [entries_chain hi] at he
    split_ifs at he with hlast
    · rw [List.mem_singleton.mp he]
      show ROOT_DIR + 256 - (ROOT_DIR + (i + 1)) < ROOT_DIR + 256 - (ROOT_DIR + i)
      omega
    · exact absurd he List.not_mem_nil

/-- The last of the chain is as many levels down as there are above it. -/
theorem dirsAt_chain (k : Skips) : ∀ n i, i + n = 256 →
    (volume chain).dirsAt k n ⟨FS_TREE_OBJECTID, ROOT_DIR + i⟩ =
      [(List.replicate n [0x61], ⟨FS_TREE_OBJECTID, ROOT_DIR + 256⟩)]
  | 0, i, h => by
    rw [show i = 256 by omega]
    rfl
  | n + 1, i, h => by
    rw [Volume.dirsAt, entries_chain (by omega), if_pos (by omega), List.flatMap_singleton,
      dirsAt_chain k n (i + 1) (by omega)]
    rfl

end Image

open Image in
/-- 257 directories, each in the one before: nothing says that the last is left out. -/
theorem walkers_chain : (fs []).Stores (Cached (volumeLeaves chain) (volume chain)) (volume chain) ∧
    (volume chain).Start crates ⟨FS_TREE_OBJECTID, ROOT_DIR⟩ ∧
    Cached (volumeLeaves chain) (volume chain) chainState ∧
    ∀ copied : List (CopyEvent Unit), ¬ SameTree (volume chain) ⟨false, false⟩
      ⟨FS_TREE_OBJECTID, ROOT_DIR⟩ ['/'] copied fun q =>
        (Result.state ((fs []).find q MAX_FIND_DEPTH ⟨FS_TREE_OBJECTID, ROOT_DIR⟩ ['/']
          (chainState, FindWork.empty))).2 := by
  have hs : Cached (volumeLeaves chain) (volume chain) chainState := cached_cachedLeaves _ _ ()
  refine ⟨stores_chain, start_chain, hs, fun copied hsame => ?_⟩
  have hnone := hsame.dirsAt_nil stores_chain start_chain hs
  rw [show (⟨FS_TREE_OBJECTID, ROOT_DIR⟩ : Loc) = ⟨FS_TREE_OBJECTID, ROOT_DIR + 0⟩ from rfl,
    dirsAt_chain ⟨false, false⟩ MAX_FIND_DEPTH 0 rfl] at hnone
  exact absurd hnone (List.cons_ne_nil _ _)

end BtrfsPeek
