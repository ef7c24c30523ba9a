import BtrfsPeek.Copy.Loops
import BtrfsPeek.Copy.Tree
import BtrfsPeek.Fs.RootItems

/-!
# What a search goes through

On a well-formed filesystem a search goes through the entries of the directory tree that it
starts at, as `Volume.below` lists them, down to the depth that it is told or to 256
directories (`Fs.find_searched`). What is deeper it leaves without a word.
-/

namespace BtrfsPeek

open Effect

variable {β : Type}

theorem Volume.isSnapshot_ok (v : Volume) (id : Nat) : ∃ b, v.isSnapshot id = .ok b := by
  rw [isSnapshot, foldlM_snapshotBit]
  cases (itemsOf v.roots id ROOT_ITEM_KEY).getLast? with
  | none => exact ⟨false, rfl⟩
  | some x => exact snapshotBit_ok x.2

/-! ## Trails -/

def FindQuery.skips (q : FindQuery) : Skips := ⟨q.oneSubvolume, q.noSnapshots⟩

/-- The path of what is reached by these names. -/
def pathOf (path : Text) (names : List Bytes) : Text :=
  names.foldl (fun p name => join p (Utf8.fromUtf8Lossy name)) path

/-- What a search goes through: the entries, with their directories, the paths that it
gives out, and the directories that it leaves for their depth. -/
structure Trail where
  visits : List (Loc × Entry)
  out : List Text
  cuts : List (Loc × Text)

namespace Trail

def empty : Trail := ⟨[], [], []⟩

def add (t u : Trail) : Trail := ⟨t.visits ++ u.visits, t.out ++ u.out, t.cuts ++ u.cuts⟩

@[simp] theorem add_empty (t : Trail) : t.add empty = t := by simp [add, empty]

theorem add_assoc (t u w : Trail) : (t.add u).add w = t.add (u.add w) := by simp [add]

end Trail

namespace Volume

variable (v : Volume) (q : FindQuery)

/-- The trail of a search of `n` levels of directories. -/
def trail (path : Text) (n : Nat) (dir : Loc) : Trail where
  visits := (v.below q.skips n dir).map Prod.snd
  out := ((v.below q.skips n dir).filter fun x => q.isMatch x.2.2).map fun x => pathOf path x.1
  cuts := (v.dirsAt q.skips n dir).map fun x => (x.2, pathOf path x.1)

/-- The part of it that comes of an entry. -/
def entryTrail (path : Text) (n : Nat) (dir : Loc) (e : Entry) : Trail :=
  let child := join path e.nameLossy
  Trail.add ⟨[(dir, e)], if q.isMatch e then [child] else [], []⟩
    (if v.descends q.skips e then v.trail q child n e.loc else .empty)

variable {v q}

theorem trail_succ (path : Text) (n : Nat) (dir : Loc) : v.trail q path (n + 1) dir =
    (v.entries dir).foldr (fun e t => (v.entryTrail q path n dir e).add t) .empty := by
  unfold trail
  rw [below, dirsAt]
  induction v.entries dir with
  | nil => rfl
  | cons e es ih =>
    rw [List.foldr_cons, ← ih, entryTrail]
    by_cases hd : v.descends q.skips e = true
    · by_cases hm : q.isMatch e = true <;>
        simp [hd, hm, Trail.add, trail, List.filter_map, Function.comp_def, pathOf, Entry.nameLossy]
    · by_cases hm : q.isMatch e = true <;>
        simp [hd, hm, Trail.add, Trail.empty, pathOf, Entry.nameLossy]

end Volume

/-! ## The tree below a directory -/

/-- A directory of a well-formed filesystem, from which no path leads back to itself. -/
structure Volume.Start (v : Volume) (X : Crates) (a : Loc) : Prop where
  wellFormed : v.WellFormed X
  under : ∃ r, v.root = .ok r ∧ v.Under r a
  acyclic : v.Acyclic a

namespace Volume

variable {v : Volume} {X : Crates} {a d : Loc} {e : Entry}

theorem Start.inside (h : v.Start X a) (hd : v.Under a d) : v.Inside d := by
  obtain ⟨r, hr, ha⟩ := h.under
  exact inside_of_under hr (ha.trans hd)

theorem entries_eq (h : v.Start X a) (hd : v.Under a d) : v.readdir d = .ok (v.entries d) :=
  readdir_eq h.wellFormed (h.inside hd)

end Volume

/-! ## Searching -/

def visitsOf (log : List FindEvent) : List (Loc × Entry) :=
  log.filterMap fun
    | .visited d _ e => some (d, e)
    | _ => none

def cutsOf (log : List FindEvent) : List (Loc × Text) :=
  log.filterMap fun
    | .cut d path => some (d, path)
    | _ => none

/-- A search in the directories `seen`, whose trail is `t`. -/
structure Searched (I : FsState β → Prop) (seen : List Loc) (t : Trail) (s : FsState β × FindWork) :
    Prop where
  reads : I s.1
  seen : s.2.seen = seen
  visits : visitsOf s.2.log = t.visits
  out : s.2.out = t.out
  cuts : cutsOf s.2.log = t.cuts
  errors : s.2.errors = []

/-- How many levels of directories a search of `left` more goes down. -/
def reach (q : FindQuery) (left : Nat) : Nat :=
  q.maxDepth.elim left fun m => min left (m - (MAX_FIND_DEPTH - left))

theorem reach_zero_iff {q : FindQuery} {left : Nat} :
    q.maxDepth.any (· ≤ MAX_FIND_DEPTH - (left + 1)) = true ↔ reach q (left + 1) = 0 := by
  unfold reach
  cases q.maxDepth with
  | none => simp
  | some m =>
    simp only [Option.any_some, decide_eq_true_eq, Option.elim_some]
    omega

theorem reach_succ {q : FindQuery} {left : Nat} (hleft : left < MAX_FIND_DEPTH)
    (h : reach q (left + 1) ≠ 0) : reach q (left + 1) = reach q left + 1 := by
  unfold reach at h ⊢
  cases hm : q.maxDepth with
  | none => rfl
  | some m =>
    simp only [hm, Option.elim_some] at h ⊢
    omega

namespace Fs

variable {fs : Fs β} {I : FsState β → Prop} {v : Volume} {q : FindQuery} {a : Loc}

theorem onFind_searched {seen : List Loc} {t u : Trail} {f : FindWork → FindWork}
    (hseen : ∀ w, (f w).seen = w.seen) (hvisits : ∀ w, visitsOf (f w).log = visitsOf w.log ++ u.visits)
    (hout : ∀ w, (f w).out = w.out ++ u.out) (hcuts : ∀ w, cutsOf (f w).log = cutsOf w.log ++ u.cuts)
    (herrors : ∀ w, (f w).errors = w.errors) :
    Ensures (Searched I seen t) (onFind f) (fun _ => Searched (β := β) I seen (t.add u)) fun _ _ => False := by
  rintro s ⟨hI, h₁, h₂, h₃, h₄, h₅⟩
  refine ⟨hI, (hseen s.2).trans h₁, ?_, ?_, ?_, (herrors s.2).trans h₅⟩
  · exact (hvisits s.2).trans (congrArg (· ++ u.visits) h₂)
  · exact (hout s.2).trans (congrArg (· ++ u.out) h₃)
  · exact (hcuts s.2).trans (congrArg (· ++ u.cuts) h₄)

/-- A record of what is no visit and no cut. -/
theorem record_searched {seen : List Loc} {t : Trail} {ev : FindEvent} (hvisit : visitsOf [ev] = [])
    (hcut : cutsOf [ev] = []) : Ensures (Searched I seen t) (findRecord ev)
      (fun _ => Searched (β := β) I seen t) fun _ _ => False := by
  have h : Ensures (Searched I seen t) (findRecord ev)
      (fun _ => Searched (β := β) I seen (t.add .empty)) fun _ _ => False :=
    onFind_searched (fun _ => rfl)
      (fun w => by simp only [visitsOf, List.filterMap_append] at hvisit ⊢; rw [hvisit]; rfl)
      (fun w => (List.append_nil _).symm)
      (fun w => by simp only [cutsOf, List.filterMap_append] at hcut ⊢; rw [hcut]; rfl) fun _ => rfl
  rw [Trail.add_empty] at h
  exact h

theorem showMatch_searched {seen : List Loc} {t : Trail} (e : Entry) (child : Text) :
    Ensures (Searched I seen t) (showMatch q e child)
      (fun _ => Searched (β := β) I seen (t.add ⟨[], if q.isMatch e then [child] else [], []⟩))
      fun _ _ => False := by
  have hout : Ensures (Searched I seen t) (onFind fun w => { w with out := w.out ++ [child] })
      (fun _ => Searched (β := β) I seen (t.add ⟨[], [child], []⟩)) fun _ _ => False :=
    onFind_searched (fun _ => rfl) (fun _ => by simp) (fun _ => rfl) (fun _ => by simp) fun _ => rfl
  have hprint : Ensures (Searched I seen t) (onFind fun w => { w with printed := w.printed ++ [child] })
      (fun _ => Searched (β := β) I seen t) fun _ _ => False := by
    rintro s ⟨hI, h₁, h₂, h₃, h₄, h₅⟩
    exact ⟨hI, h₁, h₂, h₃, h₄, h₅⟩
  unfold showMatch
  by_cases hm : q.isMatch e = true
  · rw [if_pos hm, if_pos hm]
    by_cases hs : q.stream = true
    · rw [if_pos hs]
      exact hprint.bind fun _ => hout
    · rw [if_neg hs]
      exact hout
  · rw [if_neg hm, if_neg hm]
    refine Ensures.pure fun s hs => ?_
    rw [show t.add ⟨[], [], []⟩ = t from t.add_empty]
    exact hs

variable (h : fs.Stores I v)

include h

/-- Whether an entry is skipped is what the volume says. -/
theorem findSkips_searched {seen : List Loc} {t : Trail} (e : Entry) :
    Ensures (Searched I seen t) (fs.findSkips q e)
      (fun skip s => Searched I seen t s ∧ skip = v.skips q.skips e) fun _ _ => False := by
  unfold findSkips Volume.skips
  by_cases hs : e.subvol = false ∨ isPlaceholder e.loc
  · rw [if_pos hs]
    refine Ensures.pure fun s hs' => ⟨hs', ?_⟩
    rcases hs with hs | hs
    · simp [hs]
    · simp [hs]
  · rw [if_neg hs]
    rw [not_or, Bool.not_eq_false] at hs
    by_cases hone : q.oneSubvolume = true
    · rw [if_pos hone]
      exact Ensures.pure fun s hs' => ⟨hs', by simp [hs, FindQuery.skips, hone]⟩
    · rw [if_neg hone]
      by_cases hno : q.noSnapshots = true
      · rw [if_pos hno]
        obtain ⟨b, hb⟩ := v.isSnapshot_ok e.loc.tree
        rintro s ⟨hI, h₁, h₂, h₃, h₄, h₅⟩
        obtain ⟨s', hI', hrun⟩ := h.isSnapshot e.loc.tree s.1 hI
        unfold onFst
        rw [hrun, hb]
        refine ⟨⟨hI', h₁, h₂, h₃, h₄, h₅⟩, ?_⟩
        cases b <;> simp [hs, FindQuery.skips, hone, hno]
      · rw [if_neg hno]
        exact Ensures.pure fun s hs' => ⟨hs', by simp [FindQuery.skips, hone, hno]⟩

/-- An entry is gone through as the volume says, if the directories below are. -/
theorem findOne_searched {seen : List Loc} {n : Nat} {search : Search β} {dir : Loc} {path : Text} {e : Entry}
    (hsearch : v.descends q.skips e = true → ∀ t path, Ensures (Searched I seen t) (search e.loc path)
      (fun _ => Searched I seen (t.add (v.trail q path n e.loc))) fun _ _ => False) (t : Trail) :
    Ensures (Searched I seen t) (fs.findOne q search dir path e)
      (fun _ => Searched I seen (t.add (v.entryTrail q path n dir e))) fun _ _ => False := by
  have hvisited : Ensures (Searched I seen t) (findRecord (.visited dir path e))
      (fun _ => Searched (β := β) I seen (t.add ⟨[(dir, e)], [], []⟩)) fun _ _ => False :=
    onFind_searched (fun _ => rfl) (fun _ => by simp [visitsOf]) (fun _ => by simp)
      (fun _ => by simp [cutsOf]) fun _ => rfl
  refine hvisited.bind fun _ => (showMatch_searched e _).bind fun _ => ?_
  refine (findSkips_searched h e).bind fun skip => Ensures.fact fun hskip => ?_
  have htrail : (t.add ⟨[(dir, e)], [], []⟩).add
      ⟨[], if q.isMatch e then [join path e.nameLossy] else [], []⟩ =
      t.add ⟨[(dir, e)], if q.isMatch e then [join path e.nameLossy] else [], []⟩ := by
    simp [Trail.add]
  rw [htrail, Volume.entryTrail, ← Trail.add_assoc]
  have hdesc : v.descends q.skips e = true ↔ e.ftype = FT_DIR ∧ skip = false := by
    simp [Volume.descends, hskip]
  unfold descend
  by_cases hd : v.descends q.skips e = true
  · rw [if_pos (hdesc.mp hd), if_pos hd]
    refine Ensures.bind (E := fun _ _ => False) (hsearch hd _ _).attempt fun r => ?_
    cases r with
    | ok u => exact Ensures.pure fun _ hs => hs
    | error err => exact fun s hs => hs.elim
  · rw [if_neg fun hd' => hd (hdesc.mpr hd'), if_neg hd, Trail.add_empty]
    exact Ensures.pure fun _ hs => hs

theorem findEntries_searched {seen : List Loc} {n : Nat} {search : Search β} {dir : Loc} {path : Text} :
    ∀ {es : List Entry}, (∀ e ∈ es, v.descends q.skips e = true → ∀ t path,
      Ensures (Searched I seen t) (search e.loc path)
        (fun _ => Searched I seen (t.add (v.trail q path n e.loc))) fun _ _ => False) → ∀ t : Trail,
      Ensures (Searched I seen t) (forEach (fs.findOne q search dir path) es)
        (fun _ => Searched I seen (t.add (es.foldr (fun e t => (v.entryTrail q path n dir e).add t) .empty)))
        fun _ _ => False
  | [], _, t => Ensures.pure fun _ hs => by rwa [List.foldr_nil, Trail.add_empty]
  | e :: es, hsearch, t => by
    refine (findOne_searched h (hsearch e List.mem_cons_self) t).bind fun _ => ?_
    rw [List.foldr_cons, ← Trail.add_assoc]
    exact findEntries_searched (fun e he => hsearch e (List.mem_cons_of_mem _ he)) _

/-- A search of a directory leaves its trail, and no error. -/
theorem find_searched (ha : v.Start fs.crates a) {rank : Loc → Nat}
    (hrank : ∀ d, v.Under a d → ∀ e ∈ v.entries d, e.ftype = FT_DIR → rank e.loc < rank d) :
    ∀ {left : Nat} {seen : List Loc} {dir : Loc}, left ≤ MAX_FIND_DEPTH → v.Under a dir →
      (∀ d ∈ seen, rank dir < rank d) → ∀ (t : Trail) (path : Text),
      Ensures (Searched I seen t) (fs.find q left dir path)
        (fun _ => Searched I seen (t.add (v.trail q path (reach q left) dir))) fun _ _ => False := by
  intro left
  have hcut {seen : List Loc} {dir : Loc} (t : Trail) (path : Text) :
      Ensures (Searched I seen t) (findRecord (.cut dir path))
        (fun _ => Searched (β := β) I seen (t.add (v.trail q path 0 dir))) fun _ _ => False :=
    onFind_searched (fun _ => rfl) (fun _ => by simp [visitsOf, Volume.trail, Volume.below])
      (fun _ => by simp [Volume.trail, Volume.below])
      (fun _ => by simp [cutsOf, Volume.trail, Volume.dirsAt, pathOf]) fun _ => rfl
  induction left with
  | zero =>
    intro seen dir _ _ _ t path
    have hzero : reach q 0 = 0 := by
      unfold reach
      cases q.maxDepth <;> simp
    rw [hzero]
    exact (record_searched rfl rfl).bind fun _ => hcut t path
  | succ left ih =>
    intro seen dir hleft hdir hseen t path
    rw [find_succ]
    refine (record_searched rfl rfl).bind fun _ => ?_
    by_cases hm : q.maxDepth.any (· ≤ MAX_FIND_DEPTH - (left + 1)) = true
    · rw [findRest, if_pos hm, reach_zero_iff.mp hm]
      exact hcut t path
    · have hsucc : reach q (left + 1) = reach q left + 1 :=
        reach_succ hleft fun hzero => hm (reach_zero_iff.mpr hzero)
      have hnot : dir ∉ seen := fun hmem => Nat.lt_irrefl _ (hseen dir hmem)
      -- The directories below are ranked below it, too.
      have hbelow : ∀ e ∈ v.entries dir, v.descends q.skips e = true → ∀ t path,
          Ensures (Searched I (dir :: seen) t) (fs.find q left e.loc path)
            (fun _ => Searched I (dir :: seen) (t.add (v.trail q path (reach q left) e.loc)))
            fun _ _ => False := by
        intro e he hk
        have hty : e.ftype = FT_DIR := by
          unfold Volume.descends at hk
          rw [Bool.and_eq_true, decide_eq_true_eq] at hk
          exact hk.1
        have hlt : rank e.loc < rank dir := hrank dir hdir e he hty
        refine ih (Nat.le_of_succ_le hleft) (.entry hdir he hty) fun d hd => ?_
        rcases List.mem_cons.mp hd with rfl | hd
        · exact hlt
        · exact hlt.trans (hseen d hd)
      have hinner : Ensures (Searched I (dir :: seen) t) (fs.findInner q (fs.find q left) dir path)
          (fun _ => Searched I (dir :: seen) (t.add (v.trail q path (reach q left + 1) dir)))
          fun _ _ => False := by
        have hlist : Ensures (Searched I (dir :: seen) t) (onFst (fs.readdir dir))
            (fun es s => Searched I (dir :: seen) t s ∧ es = v.entries dir) fun _ _ => False := by
          rintro s ⟨hI, h₁, h₂, h₃, h₄, h₅⟩
          obtain ⟨s', hI', hrun⟩ := h.readdir (ha.inside hdir) s.1 hI
          rw [Volume.entries_eq ha hdir] at hrun
          unfold onFst
          rw [hrun]
          exact ⟨⟨hI', h₁, h₂, h₃, h₄, h₅⟩, rfl⟩
        refine hlist.bind fun es => Ensures.fact fun hes => ?_
        refine (record_searched rfl rfl).bind fun _ => ?_
        rw [findEntries_eq, Volume.trail_succ, hes]
        exact findEntries_searched h hbelow t
      rintro s ⟨hI, h₁, h₂, h₃, h₄, h₅⟩
      have hout := hinner (s.1, { s.2 with seen := dir :: s.2.seen })
        ⟨hI, congrArg (dir :: ·) h₁, h₂, h₃, h₄, h₅⟩
      rw [find_run hm (h₁ ▸ hnot), hsucc]
      generalize fs.findInner q (fs.find q left) dir path
        (s.1, { s.2 with seen := dir :: s.2.seen }) = r at hout
      cases r with
      | error e s' => exact hout.elim
      | ok u s' =>
        obtain ⟨hI', h₁', h₂', h₃', h₄', h₅'⟩ := hout
        refine ⟨hI', ?_, h₂', h₃', h₄', h₅'⟩
        show s'.2.seen.erase dir = seen
        rw [h₁', List.erase_cons_head]

end Fs

end BtrfsPeek
