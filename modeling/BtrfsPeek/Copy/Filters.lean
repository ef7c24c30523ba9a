import BtrfsPeek.Copy.Deeds
import BtrfsPeek.Copy.Walks
import Mathlib.Data.List.Chain

/-!
# What the filters keep out

Where a walk may get to from a directory, given which other subvolumes it leaves out
(`Fs.GetsTo`), and what follows on what there (`Fs.Follows`).
Both walkers walk like that (`Copier.copy_walks`, `Fs.find_walks`), so that what the filters
promise holds of every run, on every image (`filters_hold`).
-/

namespace BtrfsPeek

open Effect

variable {β η φ : Type}

/-- What sets one walker off from the other. -/
structure Manner where
  /-- The path of what is in a directory, from the directory's. -/
  child : Text → Text → Text
  /-- An entry of the directory at a path is passed over, whatever the filters say. -/
  passes : Text → Entry → Prop
  /-- What is done with an entry instead of going into it. -/
  instead : Loc → Entry → Deed → Prop
  /-- What keeps a directory that is gone into from being listed. -/
  stops : Loc → Error → Prop

/-! ## Where a walk may get to -/

namespace Fs

section walks

variable (fs : Fs β) (s : FsState β) (k : Skips) (m : Manner) (start : Loc)

/-- The newest root item of the tree was read, and was not that of a snapshot. -/
def NoSnapshot (tree : Nat) : Prop :=
  fs.Sometime s (fs.rootItem tree) fun item => ∀ d ∈ item, snapshotBit d = .ok false

/-- The filters let a walk go from `dir` into what the entry leads to. -/
def Lets (dir : Loc) (e : Entry) : Prop :=
  e.subvol = true → ¬ isPlaceholder e.loc →
    (k.oneSubvolume = true → e.loc.tree = dir.tree) ∧ (k.noSnapshots = true → fs.NoSnapshot s e.loc.tree)

/-- Where a walk may get to. -/
inductive GetsTo : Loc → Prop
  | start : GetsTo start
  | entry {dir : Loc} {e : Entry} : GetsTo dir → fs.Found s dir e → fs.Lets s k dir e → GetsTo e.loc

def Right : Deed → Prop
  | .entered dir _ | .listed dir => fs.GetsTo s k start dir
  | .visited dir _ e => fs.Found s dir e
  | .written loc => fs.GetsTo s k start loc ∧ ¬ isPlaceholder loc
  | .barred _ | .failed _ _ _ => True

/-- What need not be followed by anything: with no filter, an entry of another subvolume
must be unless it is passed over. -/
def Rests : Deed → Prop
  | .entered _ _ => False
  | .visited _ path e => k = ⟨false, false⟩ → e.subvol = true → m.passes path e
  | _ => True

/-- What may come right after `x`. -/
structure Follows (x y : Deed) : Prop where
  /-- With no filter, an entry of another subvolume is gone into. -/
  visited : ∀ dir path e, x = .visited dir path e → k = ⟨false, false⟩ → e.subvol = true →
    y = .entered e.loc (m.child path e.nameLossy) ∨ m.passes path e ∨ m.instead dir e y
  /-- What is gone into is where an entry leads that the filters let through. -/
  entered : ∀ loc path, y = .entered loc path → ∃ dir above e, x = .visited dir above e ∧
    e.loc = loc ∧ m.child above e.nameLossy = path ∧ fs.Lets s k dir e
  /-- What is gone into is listed, unless something is in the way. -/
  goes : ∀ loc path, x = .entered loc path → y = .listed loc ∨ y = .barred loc ∨
    ∃ dir e err, y = .failed dir e err ∧ e.loc = loc ∧ m.stops loc err

/-- All that was done is right, each deed after the one before it. The last is `due` to be
followed by another, or rests. -/
structure Walked (due : Option Deed) (deeds : List Deed) : Prop where
  right : ∀ d ∈ deeds, fs.Right s k start d
  first : ∀ loc path, deeds.head? = some (.entered loc path) → loc = start
  chain : deeds.IsChain (fs.Follows s k m)
  last : due.elim (∀ d ∈ deeds.getLast?, Rests k m d) fun d => deeds.getLast? = some d

/-- What the filters promise of a walk with this outcome. -/
structure Filtered (deeds : List Deed) (r : Except Error Unit) : Prop where
  /-- Within one subvolume, that is where all is from. -/
  listedHere : k.oneSubvolume = true → ∀ dir, .listed dir ∈ deeds →
    dir.tree = start.tree ∨ isPlaceholder dir
  writtenHere : k.oneSubvolume = true → ∀ loc, .written loc ∈ deeds → loc.tree = start.tree
  /-- Without snapshots, none below the start is listed. -/
  listedNone : k.noSnapshots = true → ∀ dir, .listed dir ∈ deeds →
    dir.tree = start.tree ∨ isPlaceholder dir ∨ fs.NoSnapshot s dir.tree
  /-- A directory below the start is gone into at the turn of an entry that leads there and
  that the filters let through. -/
  entered : ∀ before loc path after, deeds = before ++ .entered loc path :: after →
    before = [] ∧ loc = start ∨ ∃ dir above e, before.getLast? = some (.visited dir above e) ∧
      fs.Found s dir e ∧ fs.Lets s k dir e ∧ e.loc = loc ∧ m.child above e.nameLossy = path
  /-- An entry has its turn under a path that its directory was gone into under. -/
  visited : Pathed deeds
  /-- With no filter, an entry of another subvolume leads where a ROOT_REF decides, and is
  gone into. -/
  nested : k = ⟨false, false⟩ → ∀ before dir path e after, deeds = before ++ .visited dir path e :: after →
    e.subvol = true → (∃ child, fs.Nested s dir child e) ∧
      (after.head? = some (.entered e.loc (m.child path e.nameLossy)) ∨ m.passes path e ∨
        ∃ d, after.head? = some d ∧ m.instead dir e d)
  /-- A directory that is gone into is listed, unless something is in the way. -/
  goes : ∀ before loc path after, deeds = before ++ .entered loc path :: after →
    after.head? = some (.listed loc) ∨ after.head? = some (.barred loc) ∨
      (∃ dir e err, after.head? = some (.failed dir e err) ∧ e.loc = loc ∧ m.stops loc err) ∨
      after = [] ∧ loc = start ∧ ∃ err, r = .error err ∧ m.stops loc err

end walks

variable {fs : Fs β} {s : FsState β} {k : Skips} {m : Manner} {start dir loc : Loc} {e : Entry}
  {path : Text} {due due' : Option Deed} {deeds : List Deed}

theorem GetsTo.here (h : fs.GetsTo s k start dir) (hk : k.oneSubvolume = true) :
    dir.tree = start.tree ∨ isPlaceholder dir := by
  induction h with
  | start => exact .inl rfl
  | @entry dir e _ hfound hlets ih =>
    have htree : dir.tree = start.tree := ih.resolve_right hfound.1
    cases hs : e.subvol with
    | false => exact .inl ((hfound.tree_eq hs).trans htree)
    | true =>
      by_cases hp : isPlaceholder e.loc
      · exact .inr hp
      · exact .inl (((hlets hs hp).1 hk).trans htree)

theorem GetsTo.noSnapshot (h : fs.GetsTo s k start dir) (hk : k.noSnapshots = true) :
    dir.tree = start.tree ∨ isPlaceholder dir ∨ fs.NoSnapshot s dir.tree := by
  induction h with
  | start => exact .inl rfl
  | @entry dir e _ hfound hlets ih =>
    cases hs : e.subvol with
    | false =>
      rw [hfound.tree_eq hs]
      exact ih.imp_right fun h => .inr (h.resolve_left hfound.1)
    | true =>
      by_cases hp : isPlaceholder e.loc
      · exact .inr (.inl hp)
      · exact .inr (.inr ((hlets hs hp).2 hk))

/-- After what rests comes anything but going in. -/
theorem Follows.of_rests {x y : Deed} (hx : Rests k m x) (hy : ∀ loc path, y ≠ .entered loc path) :
    fs.Follows s k m x y where
  visited dir path e hxe hk hs := by
    rw [hxe] at hx
    exact .inr (.inl (hx hk hs))
  entered loc path hye := absurd hye (hy loc path)
  goes loc path hxe := by
    rw [hxe] at hx
    exact hx.elim

namespace Walked

theorem nil : fs.Walked s k m start none [] where
  right _ h := absurd h List.not_mem_nil
  first _ _ h := nomatch h
  chain := .nil
  last _ h := nomatch h

/-- One deed more. -/
theorem add (h : fs.Walked s k m start due deeds) {d : Deed} (hd : fs.Right s k start d)
    (hfirst : deeds = [] → ∀ loc path, d = .entered loc path → loc = start)
    (hfollows : ∀ x ∈ deeds.getLast?, fs.Follows s k m x d)
    (hlast : due'.elim (Rests k m d) (d = ·)) : fs.Walked s k m start due' (deeds ++ [d]) where
  right x hx := by
    rcases List.mem_append.mp hx with hx | hx
    · exact h.right x hx
    · exact List.mem_singleton.mp hx ▸ hd
  first loc path hhead := by
    cases hdeeds : deeds with
    | nil =>
      rw [hdeeds] at hhead
      exact hfirst hdeeds loc path (Option.some.inj hhead)
    | cons x xs =>
      rw [hdeeds] at hhead
      exact h.first loc path (by rw [hdeeds]; exact hhead)
  chain := by
    refine h.chain.append (.singleton d) fun x hx y hy => ?_
    rw [List.head?_cons, Option.mem_some_iff] at hy
    exact hy ▸ hfollows x hx
  last := by
    rw [List.getLast?_concat]
    cases due' with
    | none => exact fun x hx => Option.mem_some_iff.mp hx ▸ hlast
    | some y => exact congrArg some hlast

theorem begin : fs.Walked s k m start (some (.entered start path)) ([] ++ [.entered start path]) :=
  Walked.nil.add .start (fun _ _ _ he => by cases he; rfl) (fun _ hx => nomatch hx) rfl

/-- What rests, after what rests. -/
theorem note (h : fs.Walked s k m start none deeds) {d : Deed} (hd : fs.Right s k start d)
    (hrests : Rests k m d) (hentered : ∀ loc path, d ≠ .entered loc path) :
    fs.Walked s k m start none (deeds ++ [d]) :=
  h.add hd (fun _ loc path he => absurd he (hentered loc path))
    (fun x hx => .of_rests (h.last x hx) hentered) hrests

theorem visit (h : fs.Walked s k m start none deeds) (hfound : fs.Found s dir e) :
    fs.Walked s k m start (some (.visited dir path e)) (deeds ++ [.visited dir path e]) :=
  h.add hfound (fun _ _ _ he => nomatch he) (fun x hx => .of_rests (h.last x hx) nofun) rfl

/-- At the turn of an entry, one goes into what it leads to. -/
theorem enter (h : fs.Walked s k m start (some (.visited dir path e)) deeds)
    (hloc : fs.GetsTo s k start e.loc) (hlets : fs.Lets s k dir e) :
    fs.Walked s k m start (some (.entered e.loc (m.child path e.nameLossy)))
      (deeds ++ [.entered e.loc (m.child path e.nameLossy)]) := by
  have hlast : deeds.getLast? = some (.visited dir path e) := h.last
  refine h.add hloc (fun hnil => ?_) (fun x hx => ?_) rfl
  · rw [hnil] at hlast
    cases hlast
  · obtain rfl := Option.some.inj (hlast.symm.trans hx)
    refine ⟨fun _ _ _ hxe _ _ => ?_, fun _ _ hye => ?_, nofun⟩
    · cases hxe
      exact .inl rfl
    · cases hye
      exact ⟨dir, path, e, rfl, rfl, rfl, hlets⟩

/-- Something else is done with it. -/
theorem replace (h : fs.Walked s k m start (some (.visited dir path e)) deeds) {d : Deed}
    (hd : fs.Right s k start d) (hinstead : m.instead dir e d) (hrests : Rests k m d)
    (hentered : ∀ loc path, d ≠ .entered loc path) : fs.Walked s k m start none (deeds ++ [d]) := by
  have hlast : deeds.getLast? = some (.visited dir path e) := h.last
  refine h.add hd (fun _ loc path he => absurd he (hentered loc path)) (fun x hx => ?_) hrests
  obtain rfl := Option.some.inj (hlast.symm.trans hx)
  refine ⟨fun _ _ _ hxe _ _ => ?_, fun loc path hye => absurd hye (hentered loc path), nofun⟩
  cases hxe
  exact .inr (.inr hinstead)

/-- Nothing need be done with it. -/
theorem settle (h : fs.Walked s k m start (some (.visited dir path e)) deeds)
    (hrests : k = ⟨false, false⟩ → e.subvol = true → m.passes path e) :
    fs.Walked s k m start none deeds := by
  have hlast : deeds.getLast? = some (.visited dir path e) := h.last
  refine ⟨h.right, h.first, h.chain, fun d hd => ?_⟩
  obtain rfl := Option.some.inj (hlast.symm.trans hd)
  exact hrests

/-- What was gone into is listed, or something is in the way. -/
theorem arrive (h : fs.Walked s k m start (some (.entered loc path)) deeds) {d : Deed}
    (hd : fs.Right s k start d) (hrests : Rests k m d) (hentered : ∀ loc path, d ≠ .entered loc path)
    (hgoes : d = .listed loc ∨ d = .barred loc ∨
      ∃ dir e err, d = .failed dir e err ∧ e.loc = loc ∧ m.stops loc err) :
    fs.Walked s k m start none (deeds ++ [d]) := by
  have hlast : deeds.getLast? = some (.entered loc path) := h.last
  refine h.add hd (fun _ loc path he => absurd he (hentered loc path)) (fun x hx => ?_) hrests
  obtain rfl := Option.some.inj (hlast.symm.trans hx)
  refine ⟨nofun, fun loc path hye => absurd hye (hentered loc path), fun _ _ hxe => ?_⟩
  cases hxe
  exact hgoes

theorem next {before after : List Deed} {x y : Deed}
    (h : fs.Walked s k m start due (before ++ x :: y :: after)) : fs.Follows s k m x y :=
  (List.isChain_cons_cons.mp h.chain.right_of_append).1

theorem getsTo (h : fs.Walked s k m start (some (.entered loc path)) deeds) :
    fs.GetsTo s k start loc :=
  h.right _ (List.mem_of_getLast? h.last)

end Walked

/-- How a walk ends: all is followed by what should follow it, but for the start if that
could not be listed. -/
def Ended (fs : Fs β) (s : FsState β) (k : Skips) (m : Manner) (start : Loc) (deeds : List Deed)
    (r : Except Error Unit) : Prop :=
  fs.Walked s k m start none deeds ∨ ∃ path err, r = .error err ∧
    fs.Walked s k m start (some (.entered start path)) deeds ∧ m.stops start err

theorem Ended.walked {r : Except Error Unit} (h : fs.Ended s k m start deeds r) :
    ∃ due, fs.Walked s k m start due deeds := by
  rcases h with h | ⟨path, err, -, h, -⟩
  · exact ⟨_, h⟩
  · exact ⟨_, h⟩

/-- What comes last rests, or it is the start. -/
theorem Ended.last {r : Except Error Unit} {before : List Deed} {d : Deed}
    (h : fs.Ended s k m start (before ++ [d]) r) :
    Rests k m d ∨ ∃ path err, d = .entered start path ∧ r = .error err ∧ m.stops start err := by
  rcases h with h | ⟨path, err, hr, h, hstops⟩
  · exact .inl (h.last d (List.getLast?_concat ..))
  · have hlast : (before ++ [d]).getLast? = some (.entered start path) := h.last
    rw [List.getLast?_concat] at hlast
    exact .inr ⟨path, err, Option.some.inj hlast, hr, hstops⟩

theorem Ended.filtered {r : Except Error Unit} (h : fs.Ended s k m start deeds r) (hpathed : Pathed deeds) :
    fs.Filtered s k m start deeds r := by
  obtain ⟨due, hw⟩ := h.walked
  have hlast {before : List Deed} {d : Deed} (hd : deeds = before ++ [d]) : Rests k m d ∨
      ∃ path err, d = .entered start path ∧ r = .error err ∧ m.stops start err := by
    subst hd
    exact h.last
  have hnext {before after : List Deed} {x y : Deed} (hd : deeds = before ++ x :: y :: after) :
      fs.Follows s k m x y := by
    subst hd
    exact hw.next
  refine ⟨fun hk dir hdir => GetsTo.here (hw.right _ hdir) hk, fun hk loc hloc => ?_,
    fun hk dir hdir => GetsTo.noSnapshot (hw.right _ hdir) hk, fun before loc path after hd => ?_,
    hpathed, fun hk before dir path e after hd hs => ⟨?_, ?_⟩, fun before loc path after hd => ?_⟩
  · obtain ⟨hreach, hp⟩ := hw.right _ hloc
    exact (hreach.here hk).resolve_right hp
  · rcases List.eq_nil_or_concat before with rfl | ⟨init, x, rfl⟩
    · exact .inl ⟨rfl, hw.first loc path (by rw [hd]; rfl)⟩
    · have hfollows : fs.Follows s k m x (.entered loc path) :=
        hnext (show deeds = init ++ x :: .entered loc path :: after by rw [hd]; simp)
      obtain ⟨dir, above, e, rfl, hloc, hpath, hlets⟩ := hfollows.entered loc path rfl
      have hfound : fs.Found s dir e := hw.right (.visited dir above e) (by rw [hd]; simp)
      exact .inr ⟨dir, above, e, by simp, hfound, hlets, hloc, hpath⟩
  · have hfound : fs.Found s dir e := hw.right (.visited dir path e) (by rw [hd]; simp)
    obtain ⟨x, -, -, -, hnested⟩ := hfound.nested hs
    exact ⟨_, hnested⟩
  · cases after with
    | nil =>
      rcases hlast hd with hrests | ⟨_, _, he, -⟩
      · exact .inr (.inl (hrests hk hs))
      · cases he
    | cons y after =>
      rcases (hnext hd).visited dir path e rfl hk hs with hy | hpass | hinstead
      · exact .inl (congrArg some hy)
      · exact .inr (.inl hpass)
      · exact .inr (.inr ⟨y, rfl, hinstead⟩)
  · cases after with
    | nil =>
      rcases hlast hd with hrests | ⟨_, err, he, hr, hstops⟩
      · exact hrests.elim
      · cases he
        exact .inr (.inr (.inr ⟨rfl, rfl, err, hr, hstops⟩))
    | cons y after =>
      rcases (hnext hd).goes loc path rfl with hy | hy | ⟨dir, e, err, hy, hloc, hstops⟩
      · exact .inl (congrArg some hy)
      · exact .inr (.inl (congrArg some hy))
      · exact .inr (.inr (.inl ⟨dir, e, err, congrArg some hy, hloc, hstops⟩))

end Fs

/-! ## Reading on the way -/

section going

variable {W α : Type} {fs : Fs β} {s : FsState β} {P P' : W → Prop}

/-- Reading has led here, and `P` holds of what the walk keeps itself. -/
def Going (fs : Fs β) (s : FsState β) (P : W → Prop) (t : FsState β × W) : Prop :=
  fs.Later s t.1 ∧ P t.2

theorem onFst_going {x : FsM β α} {Q : α → Prop}
    (h : Ensures (fs.Later s) x (fun a t => fs.Later s t ∧ Q a) fun _ => fs.Later s) :
    Ensures (Going fs s P) (onFst x) (fun a t => Going fs s P t ∧ Q a) fun _ => Going fs s P := by
  rintro ⟨t, w⟩ ⟨ht, hw⟩
  have := h t ht
  unfold onFst
  dsimp only
  cases hx : x t with
  | ok a u =>
    rw [hx] at this
    exact ⟨⟨this.1, hw⟩, this.2⟩
  | error e u =>
    rw [hx] at this
    exact ⟨this, hw⟩

/-- What was read, or was not. -/
theorem onFst_outcome {x : FsM β α} (h : Keeps (fs.Later s) x) :
    Ensures (Going fs s P) (onFst x)
      (fun a t => Going fs s P t ∧ ∃ u, fs.Later s u ∧ Result.value (x u) = .ok a)
      fun e t => Going fs s P t ∧ ∃ u, fs.Later s u ∧ Result.value (x u) = .error e := by
  rintro ⟨t, w⟩ ⟨ht, hw⟩
  have := h t ht
  unfold onFst
  dsimp only
  cases hx : x t with
  | ok a u =>
    rw [hx] at this
    exact ⟨⟨this, hw⟩, t, ht, by rw [hx]; rfl⟩
  | error e u =>
    rw [hx] at this
    exact ⟨⟨this, hw⟩, t, ht, by rw [hx]; rfl⟩

/-- What a directory lists was found in it. -/
theorem readdir_going (dir : Loc) : Ensures (Going fs s P) (onFst (fs.readdir dir))
    (fun es t => Going fs s P t ∧ ∀ e ∈ es, fs.Found s dir e)
    fun err t => Going fs s P t ∧ fs.FailsOnce s (fs.readdir dir) err :=
  Ensures.of_outcomes (fun _ _ _ ht hx => (onFst_going (Fs.readdir_found dir)).ok ht hx)
    fun _ _ _ ht hx => (onFst_outcome (Fs.readdir_keeps dir)).error ht hx

theorem keeps_going {x : EStateM Error (FsState β × W) α} (hreads : Keeps (OfFs (fs.Later s)) x)
    (hkeeps : Keeps (fun t => P t.2) x) : Keeps (Going fs s P) x :=
  Ensures.of_state fun _ ht => ⟨hreads.state ht.1, hkeeps.state ht.2⟩

theorem onSnd_going {g : W → W} {E : Error → FsState β × W → Prop} (h : ∀ w, P w → P' (g w)) :
    Ensures (Going fs s P) (onSnd (modify g) : EStateM Error (FsState β × W) PUnit)
      (fun _ => Going fs s P') E :=
  fun _ ht => ⟨ht.1, h _ ht.2⟩

end going

/-! ## Copying -/

namespace Copier

open Fs (sometime_of_keeps isSnapshot_keeps inode_keeps)

variable (c : Copier β η φ) (s : FsState β) (start : Loc)

/-- A copy passes over what is excluded. What is no directory it copies, and what cannot
be read it counts as failed. -/
def manner : Manner where
  child := childRel
  passes rel e := c.excludes rel e.nameLossy = true
  instead dir e d := d = .written e.loc ∧ c.fs.Sometime s (c.fs.inode e.loc) (·.isDir = false) ∨
    ∃ err, d = .failed dir e err ∧ c.fs.FailsOnce s (c.fs.inode e.loc) err
  stops dir err := err = tooDeep ∨ err = .msg "directory loops back to one of its own parents; skipped" ∨
    c.fs.FailsOnce s (c.fs.readdir dir) err

/-- What was done so far is right. -/
abbrev Copying (due : Option Deed) : FsState β × Work η → Prop :=
  Going c.fs s fun w => c.fs.Walked s c.opts.skips (c.manner s) start due (copyDeeds w.log)

/-- So it is with one deed more. -/
abbrev CopyingWith (due : Option Deed) (d : Deed) : FsState β × Work η → Prop :=
  Going c.fs s fun w => c.fs.Walked s c.opts.skips (c.manner s) start due (copyDeeds w.log ++ [d])

/-- The copy of a directory failed: in what was done there, or before it was listed. -/
def Stopped (dir : Loc) (rel : Text) (err : Error) (t : FsState β × Work η) : Prop :=
  c.Copying s start none t ∨
    c.Copying s start (some (.entered dir rel)) t ∧ (c.manner s).stops dir err

variable {c s start} {dir loc : Loc} {e : Entry} {due due' : Option Deed}
  {E : Error → FsState β × Work η → Prop}

/-- What is recorded is a deed. -/
theorem record_deed {ev : CopyEvent η} {d : Deed} (hd : ev.deed = some d) :
    Ensures (c.CopyingWith s start due d) (record ev) (fun _ => c.Copying s start due) E :=
  onSnd_going fun w hw => by
    rwa [copyDeeds, List.filterMap_append, List.filterMap_cons_some hd]

theorem record_copying {ev : CopyEvent η} {d : Deed} (hd : ev.deed = some d)
    (h : ∀ deeds, c.fs.Walked s c.opts.skips (c.manner s) start due deeds →
      c.fs.Walked s c.opts.skips (c.manner s) start due' (deeds ++ [d])) :
    Ensures (c.Copying s start due) (record ev) (fun _ => c.Copying s start due') E :=
  (record_deed hd).mono (fun _ ht => ⟨ht.1, h _ ht.2⟩) (fun _ _ h => h) fun _ _ h => h

theorem note_copying {ev : CopyEvent η} (hd : ev.deed = none) :
    Ensures (c.Copying s start due) (record ev) (fun _ => c.Copying s start due) E :=
  onSnd_going fun w hw => by
    rwa [copyDeeds, List.filterMap_append, List.filterMap_cons_none hd, List.filterMap_nil,
      List.append_nil]

/-- What is no deed. -/
theorem modify_copying {g : Work η → Work η} (h : ∀ w, (g w).log = w.log) :
    Ensures (c.Copying s start due) (onSnd (modify g)) (fun _ => c.Copying s start due) E :=
  onSnd_going fun w hw => by rwa [h]

theorem report_copying (f : Report → Report) :
    Ensures (c.Copying s start due) (report f) (fun _ => c.Copying s start due) E :=
  modify_copying fun _ => rfl

theorem respects_walked : c.Respects (fun _ => True) fun w =>
    c.fs.Walked s c.opts.skips (c.manner s) start due (copyDeeds w.log) :=
  respects_of_frame c fun _ _ _ h => h

/-- What is not skipped may be gone into; with no filter nothing is skipped. -/
theorem skips_copying : Ensures (c.Copying s start due) (c.skips e dir)
    (fun skip t => c.Copying s start due t ∧ (skip = false → c.fs.Lets s c.opts.skips dir e) ∧
      (skip = true → c.opts.skips ≠ ⟨false, false⟩))
    fun _ t => c.Copying s start due t ∧ c.opts.skips ≠ ⟨false, false⟩ := by
  unfold skips
  split_ifs with hs hone hno
  · refine Ensures.pure fun t ht => ⟨ht, fun _ hsub hp => ?_, nofun⟩
    rcases hs with hs | hs
    · rw [hs] at hsub
      cases hsub
    · exact absurd hs hp
  · refine Ensures.pure fun t ht => ⟨ht, nofun, fun _ hk => ?_⟩
    have hfalse : c.opts.oneSubvolume = false := congrArg Skips.oneSubvolume hk
    simp [hfalse] at hone
  · have hk : c.opts.skips ≠ ⟨false, false⟩ := fun hk => by
      have hfalse : c.opts.noSnapshots = false := congrArg Skips.noSnapshots hk
      simp [hfalse] at hno
    refine (onFst_going (sometime_of_keeps (isSnapshot_keeps _))).mono (fun _ h => h) (fun skip t h => ?_)
      fun _ t h => ⟨h, hk⟩
    refine ⟨h.1, fun hskip _ _ => ⟨fun h₁ => ?_, fun _ => ?_⟩, fun _ => hk⟩
    · by_contra hne
      exact hone ⟨h₁, hne⟩
    · exact Fs.Sometime.of_isSnapshot (hskip ▸ h.2)
  · refine Ensures.pure fun t ht => ⟨ht, fun _ _ _ => ⟨fun h₁ => ?_, fun h₂ => ?_⟩, nofun⟩
    · by_contra hne
      exact hone ⟨h₁, hne⟩
    · exact absurd h₂ hno

/-- What is no directory is copied from where a walk may get to. -/
theorem copyLeaf_copying (h : ∀ deeds, c.fs.Walked s c.opts.skips (c.manner s) start due deeds →
      c.fs.Walked s c.opts.skips (c.manner s) start none (deeds ++ [.written loc]))
    (src : Text) (dest : HostPath) : Ensures (c.Copying s start due) (c.copyLeaf loc src dest)
      (fun _ => c.Copying s start none) fun _ => c.Copying s start none := by
  refine Ensures.of_state fun t ht => ⟨(copyLeaf_reads loc src dest).state ht.1, ?_⟩
  have hnoted : c.fs.Walked s c.opts.skips (c.manner s) start none
      (copyDeeds (t.2.log ++ [.leaf loc dest t.2.host])) := by
    rw [copyDeeds, List.filterMap_append]
    exact h _ ht.2
  exact (leafRest_keeps respects_walked loc src trivial trivial).state
    (s := (t.1, { t.2 with log := t.2.log ++ [.leaf loc dest t.2.host] })) hnoted

section entries

variable {recurse : Recurse β η} (hrec : ∀ loc src rel dest,
  Ensures (c.CopyingWith s start (some (.entered loc rel)) (.entered loc rel))
    (recurse loc src rel dest) (fun _ => c.Copying s start none) (c.Stopped s start loc rel))

include hrec

theorem copyEntry_copying (hdir : c.fs.GetsTo s c.opts.skips start dir) (hfound : c.fs.Found s dir e)
    (src rel : Text) (dest : HostPath) :
    Ensures (c.Copying s start (some (.visited dir rel e)))
      (c.copyEntry recurse e dir src (childRel rel e.nameLossy) dest) (fun _ => c.Copying s start none)
      fun err => c.CopyingWith s start none (.failed dir e err) := by
  have hsettle {t : FsState β × Work η} (ht : c.Copying s start (some (.visited dir rel e)) t)
      (hk : c.opts.skips ≠ ⟨false, false⟩) : c.Copying s start none t :=
    ⟨ht.1, ht.2.settle fun hk' => absurd hk' hk⟩
  have hfail {err : Error} {t : FsState β × Work η} (ht : c.Copying s start none t) :
      c.CopyingWith s start none (.failed dir e err) t := ⟨ht.1, ht.2.note trivial trivial (by simp)⟩
  refine Ensures.bind (skips_copying.mono (fun _ h => h) (fun _ _ h => h) fun _ t h =>
    hfail (hsettle h.1 h.2)) fun skip => Ensures.fact fun hskip => ?_
  split_ifs with hs
  · exact (report_copying _).mono (fun t ht => hsettle ht (hskip.2 hs)) (fun _ _ h => h) fun _ _ h => h
  · have hlets := hskip.1 (Bool.eq_false_iff.mpr hs)
    have hloc : c.fs.GetsTo s c.opts.skips start e.loc := .entry hdir hfound hlets
    refine Ensures.bind ((onFst_outcome (inode_keeps e.loc)).mono (fun _ h => h) (fun _ _ h => h)
      fun err t h => ?_) fun i => Ensures.fact fun hi => ?_
    · obtain ⟨ht, u, hu, herr⟩ := h
      exact ⟨ht.1, ht.2.replace trivial (.inr ⟨err, rfl, u, hu, herr⟩) trivial (by simp)⟩
    · obtain ⟨u, hu, hi⟩ := hi
      split_ifs with hd
      · refine (hrec e.loc src _ dest).mono (fun t ht => ⟨ht.1, ht.2.enter hloc hlets⟩) (fun _ _ h => h)
          fun err t ht => ?_
        rcases ht with ht | ⟨ht, hstops⟩
        · exact hfail ht
        · exact ⟨ht.1, ht.2.arrive trivial trivial (by simp) (.inr (.inr ⟨dir, e, err, rfl, rfl, hstops⟩))⟩
      · have hp : ¬ Fs.isPlaceholder e.loc := fun hp => by
          rw [Fs.inode, if_pos hp] at hi
          cases hi
          exact hd rfl
        have hfile : c.fs.Sometime s (c.fs.inode e.loc) (·.isDir = false) :=
          ⟨u, i, hu, hi, Bool.eq_false_iff.mpr hd⟩
        exact (copyLeaf_copying (fun deeds h => h.replace ⟨hloc, hp⟩ (.inl ⟨rfl, hfile⟩) trivial (by simp))
          src dest).mono (fun _ h => h) (fun _ _ h => h) fun _ _ => hfail

theorem tryEntry_copying (hdir : c.fs.GetsTo s c.opts.skips start dir) (hfound : c.fs.Found s dir e)
    (src rel : Text) (dest : HostPath) :
    Ensures (c.Copying s start (some (.visited dir rel e)))
      (c.tryEntry recurse e dir src (childRel rel e.nameLossy) dest) (fun _ => c.Copying s start none) E := by
  refine (copyEntry_copying hrec hdir hfound src rel dest).attempt.bind fun r => ?_
  cases r with
  | ok u => exact (note_copying rfl).bind fun _ => Ensures.pure fun _ h => h
  | error err => exact (record_deed rfl).bind fun _ => report_copying _

theorem copyOne_copying (hdir : c.fs.GetsTo s c.opts.skips start dir) (hfound : c.fs.Found s dir e)
    (src rel : Text) (dest : HostPath) (taken : List Text) :
    Ensures (c.Copying s start none) (c.copyOne recurse dir src rel dest (e, taken))
      (fun _ => c.Copying s start none) E := by
  refine Ensures.bind (record_copying rfl fun deeds h => h.visit hfound) fun _ => ?_
  dsimp only
  cases hgive : c.give rel taken e with
  | none =>
    have hexc : c.excludes rel e.nameLossy = true := by
      unfold give at hgive
      split_ifs at hgive with hex
      exact hex
    exact (report_copying _).mono (fun t ht => ⟨ht.1, ht.2.settle fun _ _ => hexc⟩) (fun _ _ h => h)
      fun _ _ h => h
  | some host =>
    have hsafe : SafeName c.platform host := by
      unfold give at hgive
      split_ifs at hgive
      cases hgive
      exact safeName_chosenName taken e
    have hparent : ¬ (dest.join c.platform host).parent ≠ some dest := by
      rw [hsafe.join]
      simp [HostPath.parent]
    dsimp only
    rw [if_neg hparent]
    have htry : Ensures (c.Copying s start (some (.visited dir rel e))) _ _ E :=
      tryEntry_copying hrec hdir hfound (src ++ '/' :: e.nameLossy) rel (dest.join c.platform host)
    split_ifs
    · exact (report_copying _).bind fun _ => htry
    · exact htry

theorem copyDirInner_copying (hdir : c.fs.GetsTo s c.opts.skips start dir) (src rel : Text)
    (dest : HostPath) : Ensures (c.Copying s start (some (.entered dir rel)))
      (c.copyDirInner recurse dir src rel dest) (fun _ => c.Copying s start none)
      (c.Stopped s start dir rel) := by
  have henter : Keeps (c.Copying s start (some (.entered dir rel))) (c.enter dir src dest) :=
    keeps_going (enter_reads dir src dest) (enter_keeps respects_walked dir src trivial)
  refine Ensures.bind (Ensures.attempt henter) fun r => ?_
  cases r with
  | error err =>
    refine Ensures.bind (record_copying rfl fun deeds h => ?_) fun _ => Ensures.throw fun _ h => .inl h
    exact h.arrive trivial trivial nofun (.inr (.inl rfl))
  | ok u =>
    refine (note_copying rfl).bind fun _ => ?_
    refine Ensures.bind ((readdir_going dir).mono (fun _ h => h) (fun _ _ h => h) fun err t h => ?_)
      fun es => Ensures.fact fun hfound => ?_
    · exact .inr ⟨h.1, .inr (.inr h.2)⟩
    refine Ensures.bind (record_copying rfl fun deeds h =>
      h.arrive (d := .listed dir) hdir trivial nofun (.inl rfl)) fun _ => ?_
    rw [copyEntries_eq]
    have hentries : Keeps (c.Copying s start none)
        (forEach (c.copyOne recurse dir src rel dest) (Naming.turns (c.give rel) c.fold [] es)) := by
      refine Ensures.forEach fun x hx => ?_
      exact copyOne_copying hrec hdir (hfound x.1 (Naming.mem_of_mem_turns hx)) src rel dest x.2
    have hmtime : Keeps (c.Copying s start none) (c.setMtime dir dest) :=
      keeps_going (setMtime_reads dir dest) (setMtime_keeps respects_walked dir trivial)
    exact (hentries.bind fun _ => hmtime).mono (fun _ h => h) (fun _ _ h => h) fun _ _ h => .inl h

end entries

theorem copyDir_copying : ∀ (left : Nat) (dir : Loc) (src rel : Text) (dest : HostPath),
    Ensures (c.CopyingWith s start (some (.entered dir rel)) (.entered dir rel))
      (c.copyDir left dir src rel dest) (fun _ => c.Copying s start none) (c.Stopped s start dir rel)
  | 0, dir, _, rel, _ => (record_deed rfl).bind fun _ => Ensures.throw fun _ ht => .inr ⟨ht, .inl rfl⟩
  | left + 1, dir, src, rel, dest => by
    refine (record_deed rfl).bind fun _ => (Ensures.get fun _ ht => ht).bind fun w => ?_
    refine Ensures.bind (Ensures.lift (fun _ _ _ ht => ht) fun err herr t ht => ?_) fun _ => ?_
    · exact .inr ⟨ht, .inr (.inl (eq_of_bailIf herr))⟩
    have hin : Ensures (c.Copying s start (some (.entered dir rel)))
        (onSnd (modify fun w => { w with ancestors := dir :: w.ancestors }))
        (fun _ => c.Copying s start (some (.entered dir rel))) (c.Stopped s start dir rel) :=
      modify_copying fun _ => rfl
    refine hin.bind fun _ => ?_
    refine Ensures.of_start fun t ht => ?_
    have hinner := copyDirInner_copying (fun loc src rel dest => copyDir_copying left loc src rel dest)
      ht.2.getsTo src rel dest
    refine (hinner.mono (fun u (hu : u = t) => hu.symm ▸ ht) (fun _ _ h => h) fun _ _ h => h).attempt.bind fun r => ?_
    cases r with
    | ok u => exact fun _ ht => ht
    | error err => exact fun _ ht => ht

/-- Whatever a copy does, it may; and what it goes into it lists, unless that is stopped. -/
theorem copy_walks (src : Text) (dest : HostPath) :
    Ensures (Going c.fs s fun w => copyDeeds w.log = []) (c.copy start src dest)
      (fun u t => c.fs.Ended s c.opts.skips (c.manner s) start (copyDeeds t.2.log) (.ok u))
      fun err t => c.fs.Ended s c.opts.skips (c.manner s) start (copyDeeds t.2.log) (.error err) := by
  have hnil {w : Work η} (hw : copyDeeds w.log = []) :
      c.fs.Walked s c.opts.skips (c.manner s) start none (copyDeeds w.log) := hw ▸ .nil
  refine Ensures.bind ((onFst_outcome (inode_keeps start)).mono (fun _ h => h) (fun _ _ h => h)
    fun _ _ h => .inl (hnil h.1.2)) fun i => Ensures.fact fun hi => ?_
  split_ifs with hd
  · refine (copyDir_copying _ start _ [] dest).mono (fun t ht => ⟨ht.1, ?_⟩) (fun _ _ h => .inl h.2)
      fun err t ht => ?_
    · have hnone : copyDeeds t.2.log = [] := ht.2
      show c.fs.Walked s c.opts.skips (c.manner s) start _ (copyDeeds t.2.log ++ [.entered start []])
      rw [hnone]
      exact Fs.Walked.begin
    · rcases ht with ht | ⟨ht, hstops⟩
      · exact .inl ht.2
      · exact .inr ⟨_, err, rfl, ht.2, hstops⟩
  · have hp : ¬ Fs.isPlaceholder start := fun hp => by
      obtain ⟨u, -, hi⟩ := hi
      rw [Fs.inode, if_pos hp] at hi
      cases hi
      exact hd rfl
    have hisDir : Keeps (c.Copying s start none) (onSnd (hostCall hostError (c.host.isDir dest))) := by
      intro t ht
      unfold onSnd hostCall
      cases c.host.isDir dest t.2.host <;> exact ht
    have hleaf (dest : HostPath) : Keeps (c.Copying s start none) (c.copyLeaf start src dest) :=
      copyLeaf_copying (fun _ h => h.note (d := .written start) ⟨.start, hp⟩ trivial (by simp)) src dest
    refine (hisDir.attempt.bind fun r => ?_).mono (fun t ht => ⟨ht.1, hnil ht.2⟩)
      (fun _ _ h => .inl h.2) fun _ _ h => .inl h.2
    split
    · exact hleaf _
    · exact hleaf _

end Copier

/-! ## Searching -/

namespace Fs

section search

variable (fs : Fs β) (q : FindQuery) (s : FsState β) (start : Loc)

/-- A search passes over nothing. -/
def findManner : Manner where
  child := join
  passes _ _ := False
  instead _ _ _ := False
  stops dir err := (∃ path, err = .msg s!"{String.ofList path}: directory loops back to one of its own parents") ∨
    fs.FailsOnce s (fs.readdir dir) err

/-- What was done so far is right. -/
abbrev Searching (due : Option Deed) : FsState β × FindWork → Prop :=
  Going fs s fun w => fs.Walked s q.skips (fs.findManner s) start due (findDeeds w.log)

/-- So it is with one deed more. -/
abbrev SearchingWith (due : Option Deed) (d : Deed) : FsState β × FindWork → Prop :=
  Going fs s fun w => fs.Walked s q.skips (fs.findManner s) start due (findDeeds w.log ++ [d])

/-- The search of a directory failed: in what was done there, or before it was listed. -/
def FindStopped (dir : Loc) (path : Text) (err : Error) (t : FsState β × FindWork) : Prop :=
  fs.Searching q s start none t ∨
    fs.Searching q s start (some (.entered dir path)) t ∧ (fs.findManner s).stops dir err

variable {fs q s start} {dir : Loc} {e : Entry} {due due' : Option Deed}
  {E : Error → FsState β × FindWork → Prop}

/-- What is recorded is a deed. -/
theorem findRecord_deed {ev : FindEvent} {d : Deed} (hd : ev.deed = some d) :
    Ensures (fs.SearchingWith q s start due d) (findRecord ev) (fun _ => fs.Searching q s start due) E :=
  onSnd_going fun w hw => by
    rwa [findDeeds, List.filterMap_append, List.filterMap_cons_some hd]

theorem findRecord_searching {ev : FindEvent} {d : Deed} (hd : ev.deed = some d)
    (h : ∀ deeds, fs.Walked s q.skips (fs.findManner s) start due deeds →
      fs.Walked s q.skips (fs.findManner s) start due' (deeds ++ [d])) :
    Ensures (fs.Searching q s start due) (findRecord ev) (fun _ => fs.Searching q s start due') E :=
  (findRecord_deed hd).mono (fun _ ht => ⟨ht.1, h _ ht.2⟩) (fun _ _ h => h) fun _ _ h => h

theorem findNote_searching {ev : FindEvent} (hd : ev.deed = none) :
    Ensures (fs.Searching q s start due) (findRecord ev) (fun _ => fs.Searching q s start due) E :=
  onSnd_going fun w hw => by
    rwa [findDeeds, List.filterMap_append, List.filterMap_cons_none hd, List.filterMap_nil,
      List.append_nil]

theorem onFind_searching {f : FindWork → FindWork} (h : ∀ w, (f w).log = w.log) :
    Ensures (fs.Searching q s start due) (onFind f) (fun _ => fs.Searching q s start due) E :=
  onSnd_going fun w hw => by rwa [h]

theorem showMatch_searching (child : Text) : Ensures (fs.Searching q s start due)
    (showMatch q e child) (fun _ => fs.Searching q s start due) E := by
  have hout : Ensures (fs.Searching q s start due)
      (onFind fun w => { w with out := w.out ++ [child] }) (fun _ => fs.Searching q s start due) E :=
    onFind_searching fun _ => rfl
  have hprint : Ensures (fs.Searching q s start due)
      (onFind fun w => { w with printed := w.printed ++ [child] })
      (fun _ => fs.Searching q s start due) E :=
    onFind_searching fun _ => rfl
  unfold showMatch
  split_ifs
  · exact hprint.bind fun _ => hout
  · exact hout
  · exact Ensures.pure fun _ h => h

/-- What is not skipped may be gone into; with no filter nothing is skipped. -/
theorem findSkips_searching (dir : Loc) : Ensures (fs.Searching q s start due) (fs.findSkips q e)
    (fun skip t => fs.Searching q s start due t ∧ (skip = false → fs.Lets s q.skips dir e) ∧
      (skip = true → q.skips ≠ ⟨false, false⟩))
    fun _ t => fs.Searching q s start due t ∧ q.skips ≠ ⟨false, false⟩ := by
  unfold findSkips
  split_ifs with hs hone hno
  · refine Ensures.pure fun t ht => ⟨ht, fun _ hsub hp => ?_, nofun⟩
    rcases hs with hs | hs
    · rw [hs] at hsub
      cases hsub
    · exact absurd hs hp
  · refine Ensures.pure fun t ht => ⟨ht, nofun, fun _ hk => ?_⟩
    have hfalse : q.oneSubvolume = false := congrArg Skips.oneSubvolume hk
    simp [hfalse] at hone
  · have hk : q.skips ≠ ⟨false, false⟩ := fun hk => by
      have hfalse : q.noSnapshots = false := congrArg Skips.noSnapshots hk
      simp [hfalse] at hno
    refine (onFst_going (sometime_of_keeps (isSnapshot_keeps _))).mono (fun _ h => h) (fun skip t h => ?_)
      fun _ t h => ⟨h, hk⟩
    refine ⟨h.1, fun hskip _ _ => ⟨fun h₁ => absurd h₁ hone, fun _ => ?_⟩, fun _ => hk⟩
    exact Fs.Sometime.of_isSnapshot (hskip ▸ h.2)
  · exact Ensures.pure fun t ht => ⟨ht, fun _ _ _ => ⟨fun h₁ => absurd h₁ hone, fun h₂ => absurd h₂ hno⟩,
      nofun⟩

section entries

variable {search : Search β} (hrec : ∀ loc path,
  Ensures (fs.SearchingWith q s start (some (.entered loc path)) (.entered loc path)) (search loc path)
    (fun _ => fs.Searching q s start none) (fs.FindStopped q s start loc path))

include hrec

theorem findOne_searching (hdir : fs.GetsTo s q.skips start dir) (hfound : fs.Found s dir e)
    (path : Text) : Keeps (fs.Searching q s start none) (fs.findOne q search dir path e) := by
  have hsettle {t : FsState β × FindWork} (ht : fs.Searching q s start (some (.visited dir path e)) t)
      (hk : q.skips = ⟨false, false⟩ → e.subvol = true → False) : fs.Searching q s start none t :=
    ⟨ht.1, ht.2.settle hk⟩
  refine Ensures.bind (findRecord_searching rfl fun deeds h => h.visit hfound) fun _ => ?_
  refine (showMatch_searching _).bind fun _ => ?_
  refine Ensures.bind ((findSkips_searching dir).mono (fun _ h => h) (fun _ _ h => h) fun _ t h =>
    hsettle h.1 fun hk => absurd hk h.2) fun skip => Ensures.fact fun hskip => ?_
  unfold descend
  split_ifs with hd
  · have hlets := hskip.1 hd.2
    have hloc : fs.GetsTo s q.skips start e.loc := .entry hdir hfound hlets
    have hsearch : Ensures (fs.Searching q s start (some (.visited dir path e)))
        (search e.loc (join path e.nameLossy)) (fun _ => fs.Searching q s start none)
        (fs.FindStopped q s start e.loc (join path e.nameLossy)) :=
      (hrec e.loc (join path e.nameLossy)).mono (fun t ht => ⟨ht.1, ht.2.enter hloc hlets⟩) (fun _ _ h => h)
        fun _ _ h => h
    refine hsearch.attempt.bind fun r => ?_
    cases r with
    | ok u => exact Ensures.pure fun _ h => h
    | error err =>
      refine Ensures.bind (Ensures.mono (findRecord_deed rfl) (fun t ht => ?_) (fun _ _ h => h)
        fun _ _ h => h) fun _ => onFind_searching fun _ => rfl
      rcases ht with ht | ⟨ht, hstops⟩
      · exact ⟨ht.1, ht.2.note trivial trivial nofun⟩
      · exact ⟨ht.1, ht.2.arrive trivial trivial nofun (.inr (.inr ⟨dir, e, err, rfl, rfl, hstops⟩))⟩
  · refine Ensures.pure fun t ht => hsettle ht fun hk hs => ?_
    -- The entry of another subvolume is a directory's.
    obtain ⟨x, -, -, -, hnested⟩ := hfound.nested hs
    cases hskip' : skip with
    | true => exact hskip.2 hskip' hk
    | false => exact hd ⟨hnested.1, hskip'⟩

theorem findInner_searching (hdir : fs.GetsTo s q.skips start dir) (path : Text) :
    Ensures (fs.Searching q s start (some (.entered dir path))) (fs.findInner q search dir path)
      (fun _ => fs.Searching q s start none) (fs.FindStopped q s start dir path) := by
  refine Ensures.bind ((readdir_going dir).mono (fun _ h => h) (fun _ _ h => h) fun err t h => ?_)
    fun es => Ensures.fact fun hfound => ?_
  · exact .inr ⟨h.1, .inr h.2⟩
  refine Ensures.bind (findRecord_searching rfl fun deeds h =>
    h.arrive (d := .listed dir) hdir trivial nofun (.inl rfl)) fun _ => ?_
  rw [findEntries_eq]
  have hentries : Keeps (fs.Searching q s start none) (forEach (fs.findOne q search dir path) es) :=
    Ensures.forEach fun e he => findOne_searching hrec hdir (hfound e he) path
  exact hentries.mono (fun _ h => h) (fun _ _ h => h) fun _ _ h => .inl h

end entries

theorem find_searching : ∀ (left : Nat) (dir : Loc) (path : Text),
    Ensures (fs.SearchingWith q s start (some (.entered dir path)) (.entered dir path))
      (fs.find q left dir path) (fun _ => fs.Searching q s start none)
      (fs.FindStopped q s start dir path) := by
  intro left
  have hcut {dir : Loc} {path : Text} : Ensures (fs.Searching q s start (some (.entered dir path)))
      (findRecord (.cut dir path)) (fun _ => fs.Searching q s start none)
      (fs.FindStopped q s start dir path) :=
    findRecord_searching rfl fun deeds h => h.arrive trivial trivial nofun (.inr (.inl rfl))
  induction left with
  | zero => exact fun dir path => (findRecord_deed rfl).bind fun _ => hcut
  | succ left ih =>
    intro dir path
    refine (findRecord_deed rfl).bind fun _ => ?_
    split_ifs
    · exact hcut
    · refine (Ensures.get fun _ ht => ht).bind fun w => ?_
      refine Ensures.bind (Ensures.lift (fun _ _ _ ht => ht) fun err herr t ht => ?_) fun _ => ?_
      · exact .inr ⟨ht, .inl ⟨path, eq_of_bailIf herr⟩⟩
      have hin : Ensures (fs.Searching q s start (some (.entered dir path)))
          (onFind fun w => { w with seen := dir :: w.seen })
          (fun _ => fs.Searching q s start (some (.entered dir path))) (fs.FindStopped q s start dir path) :=
        onFind_searching fun _ => rfl
      refine hin.bind fun _ => Ensures.of_start fun t ht => ?_
      have hinner := findInner_searching ih ht.2.getsTo path
      refine (hinner.mono (fun u (hu : u = t) => hu.symm ▸ ht) (fun _ _ h => h)
        fun _ _ h => h).attempt.bind fun r => ?_
      cases r with
      | ok u => exact onFind_searching fun _ => rfl
      | error err =>
        have hnote {due : Option Deed} : Keeps (fs.Searching q s start due) (findRecord (.unlisted dir)) :=
          findNote_searching rfl
        exact fun t ht => Or.imp hnote.state (fun h => ⟨hnote.state h.1, h.2⟩) ht

/-- Whatever a search does, it may; and what it goes into it lists, unless that is stopped. -/
theorem find_walks (left : Nat) (path : Text) :
    Ensures (Going fs s fun w => findDeeds w.log = []) (fs.find q left start path)
      (fun u t => fs.Ended s q.skips (fs.findManner s) start (findDeeds t.2.log) (.ok u))
      fun err t => fs.Ended s q.skips (fs.findManner s) start (findDeeds t.2.log) (.error err) := by
  refine (find_searching left start path).mono (fun t ht => ⟨ht.1, ?_⟩) (fun _ _ h => .inl h.2)
    fun err t ht => ?_
  · have hnone : findDeeds t.2.log = [] := ht.2
    show fs.Walked s q.skips (fs.findManner s) start _ (findDeeds t.2.log ++ [.entered start path])
    rw [hnone]
    exact Walked.begin
  · rcases ht with ht | ⟨ht, hstops⟩
    · exact .inl ht.2
    · exact .inr ⟨_, err, rfl, ht.2, hstops⟩

end search

end Fs

namespace Image

/-- A copier of the top-level subvolume and what is in it, but for what is excluded: all. -/
def excluding : Copier Unit (Bytes × Nat) HostPath :=
  { oneFileCopier with opts := ⟨fun _ => true, false, false, false, false⟩ }

end Image

end BtrfsPeek
