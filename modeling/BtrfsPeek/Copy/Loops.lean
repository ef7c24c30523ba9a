import BtrfsPeek.Copy.Calls
import BtrfsPeek.Copy.Find

/-!
# Directories that loop back

Both walkers keep a set of the directories they are in. Beside each stands one that is
told the path it is on and makes the set from it (`Copier.copyDirOn`, `Fs.findOn`). A copy
is always that walk. A search is as long as no directory fails to be listed: what fails
stays in its set (`Fs.find_since`).
-/

namespace BtrfsPeek

open Effect

variable {β η φ : Type}

/-! ## Copying -/

namespace Copier

variable (c : Copier β η φ)

/-- `copyDir` of a directory whose ancestors are those of the path. -/
def copyDirOn : (left : Nat) → (path : List Loc) → Recurse β η
  | 0, _, dir, _, rel, _ => do
    record (.entered dir rel)
    throw (.msg s!"directory nesting deeper than {MAX_DEPTH}; the filesystem is corrupt")
  | left + 1, path, dir, src, rel, dest => do
    record (.entered dir rel)
    lift (bailIf (dir ∈ path) (.msg "directory loops back to one of its own parents; skipped"))
    onSnd (modify fun w => { w with ancestors := dir :: path })
    let r ← attempt (c.copyDirInner (copyDirOn left (dir :: path)) dir src rel dest)
    onSnd (modify fun w => { w with ancestors := path })
    lift r

variable {c}

/-- The directories the copier is in are those of the path. -/
abbrev On (path : List Loc) : FsState β × Work η → Prop := OfWork fun w => w.ancestors = path

/-- Neither the host nor what is reported has a part in it. -/
theorem respects_on (path : List Loc) : c.Respects (fun _ => True) fun w => w.ancestors = path :=
  respects_of_frame c fun _ _ _ h => h

theorem record_on (path : List Loc) (e : CopyEvent η) : Keeps (On (β := β) path) (record e) :=
  Keeps.onSnd (P := fun w : Work η => w.ancestors = path) (Keeps.modify fun _ h => h)

theorem report_on (path : List Loc) (f : Report → Report) :
    Keeps (On (β := β) (η := η) path) (report f) :=
  Keeps.onSnd (P := fun w : Work η => w.ancestors = path) (Keeps.modify fun _ h => h)

theorem skips_keeps (Q : Work η → Prop) (e : Entry) (dir : Loc) : Keeps (OfWork Q) (c.skips e dir) := by
  refine .ite (fun _ => .pure _) fun _ => ?_
  refine .ite (fun _ => .pure _) fun _ => ?_
  exact .ite (fun _ => onFst_keeps _ _) fun _ => .pure _

section tracks

variable {path : List Loc} {recurse recurse' : Recurse β η}
  (h : ∀ dir src rel dest, Tracks (fun _ => False) (On path) (recurse dir src rel dest)
    (recurse' dir src rel dest))

include h

theorem copyEntry_tracks (e : Entry) (dir : Loc) (src rel : Text) (dest : HostPath) :
    Tracks (fun _ => False) (On path) (c.copyEntry recurse e dir src rel dest)
      (c.copyEntry recurse' e dir src rel dest) := by
  have hQ := respects_on (c := c) path
  refine (Tracks.refl .of_false (skips_keeps _ e dir)).bind fun skip => ?_
  refine .ite (fun _ => .refl .of_false (report_on path _)) fun _ => ?_
  refine (Tracks.refl .of_false (onFst_keeps _ _)).bind fun i => ?_
  exact .ite (fun _ => h _ _ _ _) fun _ =>
    .refl .of_false (copyLeaf_keeps hQ e.loc src (fun _ h => h) trivial trivial)

theorem tryEntry_tracks (e : Entry) (dir : Loc) (src rel : Text) (dest : HostPath) :
    Tracks (fun _ => False) (On path) (c.tryEntry recurse e dir src rel dest)
      (c.tryEntry recurse' e dir src rel dest) := by
  refine (copyEntry_tracks h e dir src rel dest).attempt.bind fun r => ?_
  refine (Tracks.refl .of_false (record_on path _)).bind fun _ => ?_
  cases r with
  | error err => exact .refl .of_false (report_on path _)
  | ok u => exact .refl .of_false (.pure _)

theorem copyOne_tracks (dir : Loc) (src rel : Text) (dest : HostPath) (x : Entry × List Text) :
    Tracks (fun _ => False) (On path) (c.copyOne recurse dir src rel dest x)
      (c.copyOne recurse' dir src rel dest x) := by
  have hQ := respects_on (c := c) path
  refine (Tracks.refl .of_false (record_on path _)).bind fun _ => ?_
  cases c.give rel x.2 x.1 with
  | none => exact .refl .of_false (report_on path _)
  | some host =>
    -- Whether the name is reported or not, what comes after is the same.
    refine .ite (fun _ => (Tracks.refl .of_false (warn_keeps hQ _)).bind fun _ => ?_) fun _ => ?_
    all_goals
      exact .ite (fun _ => .refl .of_false (report_on path _)) fun _ => tryEntry_tracks h _ _ _ _ _

theorem copyDirInner_tracks (dir : Loc) (src rel : Text) (dest : HostPath) :
    Tracks (fun _ => False) (On path) (c.copyDirInner recurse dir src rel dest)
      (c.copyDirInner recurse' dir src rel dest) := by
  have hQ := respects_on (c := c) path
  refine (Tracks.refl .of_false (enter_keeps hQ dir src trivial).attempt).bind fun r => ?_
  cases r with
  | error e =>
    exact (Tracks.refl .of_false (record_on path _)).bind fun _ => .refl .of_false (.throw _)
  | ok u =>
    refine (Tracks.refl .of_false (record_on path _)).bind fun _ => ?_
    refine (Tracks.refl .of_false (onFst_keeps _ _)).bind fun es => ?_
    refine (Tracks.refl .of_false (record_on path _)).bind fun _ => ?_
    refine Tracks.bind ?_ fun _ => .refl .of_false (setMtime_keeps hQ dir trivial)
    rw [copyEntries_eq, copyEntries_eq]
    exact Tracks.forEach (copyOne_tracks h dir src rel dest) _

end tracks

theorem bail_run {p : Prop} [Decidable p] {e : Error} (h : p) (s : FsState β × Work η) :
    lift (bailIf p e) s = .error e s := by
  rw [bailIf, if_pos h]
  rfl

theorem go_on_run {p : Prop} [Decidable p] {e : Error} (h : ¬ p) (s : FsState β × Work η) :
    lift (bailIf p e) s = .ok () s := by
  rw [bailIf, if_neg h]
  rfl

/-- A directory that loops back. -/
theorem copyDir_loop {left : Nat} {dir : Loc} {src rel : Text} {dest : HostPath}
    {s : FsState β × Work η} (h : dir ∈ s.2.ancestors) : c.copyDir (left + 1) dir src rel dest s =
      .error (.msg "directory loops back to one of its own parents; skipped")
        (s.1, { s.2 with log := s.2.log ++ [.entered dir rel] }) := by
  let noted : FsState β × Work η := (s.1, { s.2 with log := s.2.log ++ [.entered dir rel] })
  have hrecord : record (.entered dir rel) s = .ok ⟨⟩ noted := rfl
  exact (bind_of_ok hrecord).trans ((bind_of_ok (get_run noted)).trans
    (bind_of_error (bail_run h noted)))

/-- What a directory's copy comes to, from what its inside does. -/
theorem copyDir_run {left : Nat} {dir : Loc} {src rel : Text} {dest : HostPath}
    {s : FsState β × Work η} {r : EStateM.Result Error (FsState β × Work η) Unit}
    (h : dir ∉ s.2.ancestors) (hr : c.copyDirInner (c.copyDir left) dir src rel dest
      (s.1, { s.2 with ancestors := dir :: s.2.ancestors, log := s.2.log ++ [.entered dir rel] }) = r) :
    c.copyDir (left + 1) dir src rel dest s = done (Result.value r) ((Result.state r).1,
      { (Result.state r).2 with ancestors := (Result.state r).2.ancestors.erase dir }) := by
  rw [← hr]
  exact bind_of_ok (go_on_run h (s.1, { s.2 with log := s.2.log ++ [.entered dir rel] }))

theorem copyDirOn_run {left : Nat} {path : List Loc} {dir : Loc} {src rel : Text} {dest : HostPath}
    {s : FsState β × Work η} {r : EStateM.Result Error (FsState β × Work η) Unit}
    (h : dir ∉ path) (hr : c.copyDirInner (c.copyDirOn left (dir :: path)) dir src rel dest
      (s.1, { s.2 with ancestors := dir :: path, log := s.2.log ++ [.entered dir rel] }) = r) :
    c.copyDirOn (left + 1) path dir src rel dest s = done (Result.value r) ((Result.state r).1,
      { (Result.state r).2 with ancestors := path }) := by
  rw [← hr]
  exact bind_of_ok (go_on_run h (s.1, { s.2 with log := s.2.log ++ [.entered dir rel] }))

/-- The set is the path at every step, however the copy of a directory ends. -/
theorem copyDir_tracks : ∀ (left : Nat) (path : List Loc) (dir : Loc) (src rel : Text) (dest : HostPath),
    Tracks (fun _ => False) (On path) (c.copyDir left dir src rel dest)
      (c.copyDirOn left path dir src rel dest)
  | 0, path, _, _, _, _ => (Tracks.refl .of_false (record_on path _)).bind fun _ => .refl .of_false (.throw _)
  | left + 1, path, dir, src, rel, dest => by
    refine ⟨.of_false, ?_⟩
    rintro s rfl
    right
    by_cases hdir : dir ∈ s.2.ancestors
    · let noted : FsState β × Work η := (s.1, { s.2 with log := s.2.log ++ [.entered dir rel] })
      have hrecord : record (.entered dir rel) s = .ok ⟨⟩ noted := rfl
      have hy : c.copyDirOn (left + 1) s.2.ancestors dir src rel dest s =
          .error (.msg "directory loops back to one of its own parents; skipped") noted :=
        (bind_of_ok hrecord).trans (bind_of_error (bail_run hdir noted))
      rw [copyDir_loop hdir, hy]
      exact ⟨rfl, rfl⟩
    · let inside : FsState β × Work η :=
        (s.1, { s.2 with ancestors := dir :: s.2.ancestors, log := s.2.log ++ [.entered dir rel] })
      obtain ⟨hrun, hon⟩ := (copyDirInner_tracks (c := c) (copyDir_tracks left (dir :: s.2.ancestors))
        dir src rel dest).run_eq (s := inside) rfl
      rw [copyDir_run hdir rfl, copyDirOn_run hdir hrun, state_done]
      generalize c.copyDirInner (c.copyDir left) dir src rel dest inside = r at hon
      have herase : (Result.state r).2.ancestors.erase dir = s.2.ancestors := by
        rw [show (Result.state r).2.ancestors = dir :: s.2.ancestors from hon, List.erase_cons_head]
      rw [herase]
      exact ⟨rfl, rfl⟩

end Copier

/-! ## Searching -/

/-- The directories that failed to be listed. -/
def unlistedIn (log : List FindEvent) : List Loc :=
  log.filterMap fun
    | .unlisted d => some d
    | _ => none

theorem mem_unlistedIn {log : List FindEvent} {d : Loc} : d ∈ unlistedIn log ↔ .unlisted d ∈ log := by
  rw [unlistedIn, List.mem_filterMap]
  constructor
  · rintro ⟨e, he, hd⟩
    cases e <;> cases hd
    exact he
  · intro h
    exact ⟨_, h, rfl⟩

theorem unlistedIn_append (log log' : List FindEvent) :
    unlistedIn (log ++ log') = unlistedIn log ++ unlistedIn log' := List.filterMap_append

/-- `Q` of what a search keeps itself. -/
abbrev OfFind (Q : FindWork → Prop) (s : FsState β × FindWork) : Prop := Q s.2

/-- What holds whatever is found, and whatever a search does but fail to list a
directory. -/
structure Quiet (Q : FindWork → Prop) : Prop where
  found (w : FindWork) (out printed : List Text) (errors : List (Text × Error)) :
    Q w → Q { w with out, printed, errors }
  record (w : FindWork) (e : FindEvent) : (∀ d, e ≠ .unlisted d) → Q w → Q { w with log := w.log ++ [e] }

namespace Fs

variable {fs : Fs β} {q : FindQuery}

theorem findFst_keeps {α : Type} (Q : FindWork → Prop) (x : FsM β α) : Keeps (OfFind Q) (onFst x) :=
  Keeps.onFst x

theorem findSkips_keeps (Q : FindWork → Prop) (e : Entry) : Keeps (OfFind Q) (fs.findSkips q e) := by
  refine .ite (fun _ => .pure _) fun _ => ?_
  refine .ite (fun _ => .pure _) fun _ => ?_
  exact .ite (fun _ => Keeps.onFst _) fun _ => .pure _

section quiet

variable {Q : FindWork → Prop} (hQ : Quiet Q)

include hQ

theorem record_keeps {e : FindEvent} (he : ∀ d, e ≠ .unlisted d) :
    Keeps (OfFind (β := β) Q) (findRecord e) :=
  Keeps.onSnd (P := Q) (Keeps.modify fun w hw => hQ.record w e he hw)

theorem found_keeps (f : FindWork → FindWork) (hf : ∀ w, ∃ out printed errors, f w = { w with
    out := out, printed := printed, errors := errors }) : Keeps (OfFind (β := β) Q) (onFind f) := by
  refine Keeps.onSnd (P := Q) (Keeps.modify fun w hw => ?_)
  obtain ⟨out, printed, errors, h⟩ := hf w
  rw [h]
  exact hQ.found w out printed errors hw

end quiet

/-- An entry that is looked for is printed. -/
def showMatch (q : FindQuery) (e : Entry) (child : Text) : FindM β Unit :=
  if q.isMatch e then do
    if q.stream then onFind fun w => { w with printed := w.printed ++ [child] }
    onFind fun w => { w with out := w.out ++ [child] }
  else pure ()

/-- A directory that is not skipped is searched. -/
def descend (search : Search β) (dir : Loc) (e : Entry) (child : Text) (skip : Bool) : FindM β Unit :=
  if e.ftype = FT_DIR ∧ skip = false then do
    match ← attempt (search e.loc child) with
    | .ok () => pure ()
    | .error err => do
      findRecord (.failed dir e err)
      onFind fun w => { w with errors := w.errors ++ [(child, err)] }
  else pure ()

theorem descend_then (search : Search β) (dir : Loc) (e : Entry) (child : Text) (skip : Bool) (rest : FindM β Unit) :
    (descend search dir e child skip >>= fun _ => rest) =
      if e.ftype = FT_DIR ∧ skip = false then do
        match ← attempt (search e.loc child) with
        | .ok () => rest
        | .error err => do
          findRecord (.failed dir e err)
          onFind fun w => { w with errors := w.errors ++ [(child, err)] }
          rest
      else rest := by
  unfold descend
  by_cases hd : e.ftype = FT_DIR ∧ skip = false
  · rw [if_pos hd, if_pos hd, bind_assoc]
    refine bind_congr fun r => ?_
    cases r <;> rfl
  · rw [if_neg hd, if_neg hd, pure_bind]

/-- What is done with one entry. -/
def findOne (fs : Fs β) (q : FindQuery) (search : Search β) (dir : Loc) (path : Text) (e : Entry) :
    FindM β Unit := do
  findRecord (.visited dir path e)
  showMatch q e (join path e.nameLossy)
  let skip ← fs.findSkips q e
  descend search dir e (join path e.nameLossy) skip

theorem findEntries_eq (search : Search β) (dir : Loc) (path : Text) : ∀ es : List Entry,
    fs.findEntries q search dir path es = forEach (fs.findOne q search dir path) es := by
  intro es
  induction es with
  | nil => rfl
  | cons e es ih =>
    rw [findEntries, forEach, findOne, bind_assoc, ← ih]
    refine bind_congr fun _ => ?_
    rw [bind_assoc, showMatch]
    -- what is shown differs, and what comes after it does not
    by_cases hm : q.isMatch e = true <;> by_cases hs : q.stream = true <;>
      simp only [hm, hs, if_true, if_false, Bool.false_eq_true, bind_assoc, pure_bind]
    · refine bind_congr fun _ => bind_congr fun _ => bind_congr fun skip => ?_
      exact (descend_then search dir e _ skip _).symm
    · refine bind_congr fun _ => bind_congr fun skip => ?_
      exact (descend_then search dir e _ skip _).symm
    · exact bind_congr fun skip => (descend_then search dir e _ skip _).symm
    · exact bind_congr fun skip => (descend_then search dir e _ skip _).symm

section tracks

variable {B Q : FindWork → Prop} (hB : Quiet B) (hQ : Quiet Q) {search search' : Search β}
  (h : ∀ dir path, Tracks (OfFind B) (OfFind Q) (search dir path) (search' dir path))

include hB hQ

theorem showMatch_tracks (e : Entry) (child : Text) : Tracks (OfFind (β := β) B) (OfFind Q)
    (showMatch q e child) (showMatch q e child) := by
  have hout : Tracks (OfFind (β := β) B) (OfFind Q)
      (onFind fun w => { w with out := w.out ++ [child] })
      (onFind fun w => { w with out := w.out ++ [child] }) :=
    .refl (found_keeps hB _ fun _ => ⟨_, _, _, rfl⟩) (found_keeps hQ _ fun _ => ⟨_, _, _, rfl⟩)
  refine .ite (fun _ => .ite (fun _ => ?_) fun _ => hout) fun _ => .refl (.pure _) (.pure _)
  exact (Tracks.refl (found_keeps hB _ fun _ => ⟨_, _, _, rfl⟩)
    (found_keeps hQ _ fun _ => ⟨_, _, _, rfl⟩)).bind fun _ => hout

include h

theorem findOne_tracks (dir : Loc) (path : Text) (e : Entry) : Tracks (OfFind B) (OfFind Q)
    (fs.findOne q search dir path e) (fs.findOne q search' dir path e) := by
  have hrecord {ev : FindEvent} (hev : ∀ d, ev ≠ .unlisted d) :
      Tracks (OfFind (β := β) B) (OfFind Q) (findRecord ev) (findRecord ev) :=
    .refl (record_keeps hB hev) (record_keeps hQ hev)
  have hvisited (d : Loc) : FindEvent.visited dir path e ≠ .unlisted d := nofun
  have hfailed (err : Error) (d : Loc) : FindEvent.failed dir e err ≠ .unlisted d := nofun
  refine (hrecord hvisited).bind fun _ => ?_
  refine (showMatch_tracks hB hQ e _).bind fun _ => ?_
  refine (Tracks.refl (findSkips_keeps B e) (findSkips_keeps Q e)).bind fun skip => ?_
  refine .ite (fun _ => ?_) fun _ => .refl (.pure _) (.pure _)
  refine (h e.loc _).attempt.bind fun r => ?_
  cases r with
  | ok u => exact .refl (.pure _) (.pure _)
  | error err =>
    refine (hrecord (hfailed err)).bind fun _ => ?_
    exact .refl (found_keeps hB _ fun _ => ⟨_, _, _, rfl⟩) (found_keeps hQ _ fun _ => ⟨_, _, _, rfl⟩)

theorem findInner_tracks (dir : Loc) (path : Text) : Tracks (OfFind B) (OfFind Q)
    (fs.findInner q search dir path) (fs.findInner q search' dir path) := by
  have hlisted (d : Loc) : FindEvent.listed dir ≠ .unlisted d := nofun
  refine (Tracks.refl (findFst_keeps B _) (findFst_keeps Q _)).bind fun es => ?_
  refine (Tracks.refl (record_keeps hB hlisted) (record_keeps hQ hlisted)).bind fun _ => ?_
  rw [findEntries_eq, findEntries_eq]
  exact Tracks.forEach (findOne_tracks hB hQ h dir path) es

end tracks

/-! ## What a search leaves in its set -/

/-- Since the log was `before`, what failed to be listed has stayed in the set, beside what
was in it. -/
def Since (before : List FindEvent) (above : List Loc) (w : FindWork) : Prop :=
  ∃ new, w.log = before ++ new ∧ w.seen.Perm (unlistedIn new ++ above) ∧ w.seen.Nodup

theorem quiet_since (before : List FindEvent) (above : List Loc) : Quiet (Since before above) where
  found _ _ _ _ h := h
  record w e he := by
    rintro ⟨new, hlog, hperm, hnodup⟩
    refine ⟨new ++ [e], by rw [hlog, List.append_assoc], ?_, hnodup⟩
    have hnone : unlistedIn [e] = [] := by
      rw [List.eq_nil_iff_forall_not_mem]
      intro d hd
      exact he d (List.mem_singleton.mp (mem_unlistedIn.mp hd)).symm
    rwa [unlistedIn_append, hnone, List.append_nil]

variable (fs q)

/-- `find` of a directory whose ancestors are those of the path. -/
def findOn : (left : Nat) → (above : List Loc) → Search β
  | 0, _, dir, path => do
    findRecord (.entered dir path)
    findRecord (.cut dir path)
  | left + 1, above, dir, path => do
    findRecord (.entered dir path)
    if q.maxDepth.any (· ≤ MAX_FIND_DEPTH - (left + 1)) then
      findRecord (.cut dir path)
    else do
      lift (bailIf (dir ∈ above)
        (.msg s!"{String.ofList path}: directory loops back to one of its own parents"))
      onFind fun w => { w with seen := dir :: above }
      match ← attempt (fs.findInner q (findOn left (dir :: above)) dir path) with
      | .error e => do
        findRecord (.unlisted dir)
        throw e
      | .ok () => onFind fun w => { w with seen := above }

/-- What comes after it is recorded that a directory is gone into. -/
def findRest (left : Nat) (dir : Loc) (path : Text) : FindM β Unit :=
  if q.maxDepth.any (· ≤ MAX_FIND_DEPTH - (left + 1)) then findRecord (.cut dir path)
  else do
    let w ← MonadState.get
    lift (bailIf (dir ∈ w.2.seen)
      (.msg s!"{String.ofList path}: directory loops back to one of its own parents"))
    onFind fun w => { w with seen := dir :: w.seen }
    match ← attempt (fs.findInner q (fs.find q left) dir path) with
    | .error e => do
      findRecord (.unlisted dir)
      throw e
    | .ok () => onFind fun w => { w with seen := w.seen.erase dir }

def findOnRest (left : Nat) (above : List Loc) (dir : Loc) (path : Text) : FindM β Unit :=
  if q.maxDepth.any (· ≤ MAX_FIND_DEPTH - (left + 1)) then findRecord (.cut dir path)
  else do
    lift (bailIf (dir ∈ above)
      (.msg s!"{String.ofList path}: directory loops back to one of its own parents"))
    onFind fun w => { w with seen := dir :: above }
    match ← attempt (fs.findInner q (fs.findOn q left (dir :: above)) dir path) with
    | .error e => do
      findRecord (.unlisted dir)
      throw e
    | .ok () => onFind fun w => { w with seen := above }

theorem find_succ (left : Nat) (dir : Loc) (path : Text) : fs.find q (left + 1) dir path =
    findRecord (.entered dir path) >>= fun _ => fs.findRest q left dir path := rfl

theorem findOn_succ (left : Nat) (above : List Loc) (dir : Loc) (path : Text) :
    fs.findOn q (left + 1) above dir path =
      findRecord (.entered dir path) >>= fun _ => fs.findOnRest q left above dir path := rfl

variable {fs q}

/-- The end of a search of a directory: what fails stays in the set. -/
def leave (dir : Loc) (after : List Loc → List Loc) :
    EStateM.Result Error (FsState β × FindWork) Unit → EStateM.Result Error (FsState β × FindWork) Unit
  | .error e s => .error e (s.1, { s.2 with log := s.2.log ++ [.unlisted dir] })
  | .ok () s => .ok () (s.1, { s.2 with seen := after s.2.seen })

section runs

variable {left : Nat} {dir : Loc} {path : Text} {s : FsState β × FindWork} {above : List Loc}

theorem settle_run (x : FindM β Unit) (after : List Loc → List Loc) (s : FsState β × FindWork) :
    (do
      match ← attempt x with
      | .error e => do
        findRecord (.unlisted dir)
        throw e
      | .ok () => onFind fun w => { w with seen := after w.seen } : FindM β Unit) s =
      leave dir after (x s) := by
  refine (bind_of_ok (attempt_run x s)).trans ?_
  cases x s <;> rfl

theorem find_run (hcut : ¬ q.maxDepth.any (· ≤ MAX_FIND_DEPTH - (left + 1)) = true) (hdir : dir ∉ s.2.seen) :
    fs.findRest q left dir path s = leave dir (·.erase dir)
      (fs.findInner q (fs.find q left) dir path (s.1, { s.2 with seen := dir :: s.2.seen })) := by
  have hbail : lift (bailIf (dir ∈ s.2.seen)
      (.msg s!"{String.ofList path}: directory loops back to one of its own parents")) s = .ok () s := by
    rw [bailIf, if_neg hdir]
    rfl
  rw [findRest, if_neg hcut]
  have hin : onFind (fun w => { w with seen := dir :: w.seen }) s =
      .ok () (s.1, { s.2 with seen := dir :: s.2.seen }) := rfl
  exact (bind_of_ok (get_run s)).trans ((bind_of_ok hbail).trans
    ((bind_of_ok hin).trans (settle_run _ (·.erase dir) _)))

theorem find_loop (hcut : ¬ q.maxDepth.any (· ≤ MAX_FIND_DEPTH - (left + 1)) = true) (hdir : dir ∈ s.2.seen) :
    fs.findRest q left dir path s =
      .error (.msg s!"{String.ofList path}: directory loops back to one of its own parents") s := by
  have hbail : lift (bailIf (dir ∈ s.2.seen)
      (.msg s!"{String.ofList path}: directory loops back to one of its own parents")) s =
      .error (.msg s!"{String.ofList path}: directory loops back to one of its own parents") s := by
    rw [bailIf, if_pos hdir]
    rfl
  rw [findRest, if_neg hcut]
  exact (bind_of_ok (get_run s)).trans (bind_of_error hbail)

theorem findOn_run (hcut : ¬ q.maxDepth.any (· ≤ MAX_FIND_DEPTH - (left + 1)) = true) (hdir : dir ∉ above) :
    fs.findOnRest q left above dir path s = leave dir (fun _ => above)
      (fs.findInner q (fs.findOn q left (dir :: above)) dir path
        (s.1, { s.2 with seen := dir :: above })) := by
  have hbail : lift (bailIf (dir ∈ above)
      (.msg s!"{String.ofList path}: directory loops back to one of its own parents")) s = .ok () s := by
    rw [bailIf, if_neg hdir]
    rfl
  rw [findOnRest, if_neg hcut]
  have hin : onFind (fun w => { w with seen := dir :: above }) s =
      .ok () (s.1, { s.2 with seen := dir :: above }) := rfl
  exact (bind_of_ok hbail).trans ((bind_of_ok hin).trans (settle_run _ (fun _ => above) _))

theorem findOn_loop (hcut : ¬ q.maxDepth.any (· ≤ MAX_FIND_DEPTH - (left + 1)) = true) (hdir : dir ∈ above) :
    fs.findOnRest q left above dir path s =
      .error (.msg s!"{String.ofList path}: directory loops back to one of its own parents") s := by
  have hbail : lift (bailIf (dir ∈ above)
      (.msg s!"{String.ofList path}: directory loops back to one of its own parents")) s =
      .error (.msg s!"{String.ofList path}: directory loops back to one of its own parents") s := by
    rw [bailIf, if_pos hdir]
    rfl
  rw [findOnRest, if_neg hcut]
  exact bind_of_error hbail

end runs

theorem findInner_keeps {Q : FindWork → Prop} (hQ : Quiet Q) {search : Search β}
    (h : ∀ dir path, Keeps (OfFind Q) (search dir path)) (dir : Loc) (path : Text) :
    Keeps (OfFind Q) (fs.findInner q search dir path) :=
  (findInner_tracks hQ hQ (fun d p => .refl (h d p) (h d p)) dir path).keeps

section keeps

variable {Q : List Loc → FindWork → Prop} (hQ : ∀ above, Quiet (Q above))
  (henter : ∀ {above dir w}, dir ∉ w.seen → Q above w → Q (dir :: above) { w with seen := dir :: w.seen })
  (hleave : ∀ {above dir w}, Q (dir :: above) w → Q above { w with seen := w.seen.erase dir })
  (hfail : ∀ {above dir w}, Q (dir :: above) w → Q above { w with log := w.log ++ [.unlisted dir] })

include hQ henter hleave hfail

theorem findRest_keeps {left : Nat}
    (hrec : ∀ above dir path, Keeps (OfFind (Q above)) (fs.find q left dir path)) (above : List Loc)
    (dir : Loc) (path : Text) : Keeps (OfFind (Q above)) (fs.findRest q left dir path) := by
  by_cases hcut : q.maxDepth.any (· ≤ MAX_FIND_DEPTH - (left + 1)) = true
  · rw [findRest, if_pos hcut]
    exact record_keeps (hQ above) nofun
  · refine Ensures.of_state fun s hs => ?_
    by_cases hdir : dir ∈ s.2.seen
    · rw [find_loop hcut hdir]
      exact hs
    · have hinner : Keeps (OfFind (Q (dir :: above))) (fs.findInner q (fs.find q left) dir path) :=
        findInner_keeps (hQ _) (hrec _) dir path
      have hout := hinner.state (s := (s.1, { s.2 with seen := dir :: s.2.seen })) (henter hdir hs)
      rw [find_run hcut hdir]
      generalize fs.findInner q (fs.find q left) dir path
        (s.1, { s.2 with seen := dir :: s.2.seen }) = r at hout
      cases r with
      | error e t => exact hfail hout
      | ok u t => exact hleave hout

/-- What holds on each path, goes on when a directory is gone into and comes back when it
is left holds to the end of a search. -/
theorem find_keeps : ∀ (left : Nat) (above : List Loc) (dir : Loc) (path : Text),
    Keeps (OfFind (Q above)) (fs.find q left dir path)
  | 0, above, dir, path =>
    Keeps.bind (record_keeps (hQ above) nofun) fun _ => record_keeps (hQ above) nofun
  | left + 1, above, dir, path => by
    rw [find_succ]
    exact Keeps.bind (record_keeps (hQ above) nofun) fun _ =>
      findRest_keeps hQ henter hleave hfail (find_keeps left) above dir path

end keeps

/-- What fails stays in the set, and all else leaves it. -/
theorem find_since (before : List FindEvent) (left : Nat) (above : List Loc) (dir : Loc) (path : Text) :
    Keeps (OfFind (Since before above)) (fs.find q left dir path) := by
  refine find_keeps (quiet_since before) ?_ ?_ ?_ left above dir path
  · rintro above dir w hdir ⟨new, hlog, hperm, hnodup⟩
    exact ⟨new, hlog, (hperm.cons dir).trans List.perm_middle.symm, List.nodup_cons.mpr ⟨hdir, hnodup⟩⟩
  · rintro above dir w ⟨new, hlog, hperm, hnodup⟩
    refine ⟨new, hlog, ?_, hnodup.erase dir⟩
    have herase := (hperm.trans List.perm_middle).erase dir
    rwa [List.erase_cons_head] at herase
  · rintro above dir w ⟨new, hlog, hperm, hnodup⟩
    refine ⟨new ++ [.unlisted dir], by rw [hlog, List.append_assoc], ?_, hnodup⟩
    rw [unlistedIn_append, List.append_assoc]
    exact hperm

/-- Since the log was `before`, a directory has failed to be listed. -/
def Failed (before : List FindEvent) (w : FindWork) : Prop :=
  ∃ new d, before ++ new ++ [.unlisted d] <+: w.log

/-- The set is the path, and the log goes on from `before`. -/
def OnPath (before : List FindEvent) (above : List Loc) (w : FindWork) : Prop :=
  w.seen = above ∧ before <+: w.log

theorem quiet_failed (before : List FindEvent) : Quiet (Failed before) where
  found _ _ _ _ h := h
  record _ _ _ := fun ⟨new, d, h⟩ => ⟨new, d, h.trans (List.prefix_append _ _)⟩

theorem quiet_onPath (before : List FindEvent) (above : List Loc) : Quiet (OnPath before above) where
  found _ _ _ _ h := h
  record _ _ _ h := ⟨h.1, h.2.trans (List.prefix_append _ _)⟩

theorem record_tracks (before : List FindEvent) (above : List Loc) {e : FindEvent}
    (he : ∀ d, e ≠ .unlisted d) : Tracks (OfFind (β := β) (Failed before)) (OfFind (OnPath before above))
      (findRecord e) (findRecord e) :=
  .refl (record_keeps (quiet_failed before) he) (record_keeps (quiet_onPath before above) he)

/-- What failed has failed. -/
theorem findRest_failed (before : List FindEvent) (left : Nat) (dir : Loc) (path : Text) :
    Keeps (OfFind (Failed before)) (fs.findRest q left dir path) := by
  have hfail {w : FindWork} {dir : Loc} (h : Failed before w) :
      Failed before { w with log := w.log ++ [.unlisted dir] } := by
    obtain ⟨new, d, h⟩ := h
    exact ⟨new, d, h.trans (List.prefix_append _ _)⟩
  have hkeeps (above : List Loc) (dir : Loc) (path : Text) : Keeps (OfFind (Failed before)) (fs.find q left dir path) :=
    find_keeps (Q := fun _ => Failed before) (fun _ => quiet_failed before) (fun _ h => h) (fun h => h) hfail
      left above dir path
  exact findRest_keeps (Q := fun _ => Failed before) (fun _ => quiet_failed before) (fun _ h => h) (fun h => h)
    hfail hkeeps [] dir path

/-- As long as no directory fails to be listed, the set is the path at every step. -/
theorem find_tracks (before : List FindEvent) : ∀ (left : Nat) (above : List Loc) (dir : Loc)
    (path : Text), Tracks (OfFind (Failed before)) (OfFind (OnPath before above))
      (fs.find q left dir path) (fs.findOn q left above dir path)
  | 0, above, dir, path => by
    have hentered (d : Loc) : FindEvent.entered dir path ≠ .unlisted d := nofun
    have hcut (d : Loc) : FindEvent.cut dir path ≠ .unlisted d := nofun
    exact (record_tracks before above hentered).bind fun _ => record_tracks before above hcut
  | left + 1, above, dir, path => by
    have hentered (d : Loc) : FindEvent.entered dir path ≠ .unlisted d := nofun
    rw [find_succ, findOn_succ]
    refine (record_tracks before above hentered).bind fun _ => ⟨findRest_failed before left dir path, ?_⟩
    rintro s ⟨rfl, hlog⟩
    by_cases hcut : q.maxDepth.any (· ≤ MAX_FIND_DEPTH - (left + 1)) = true
    · have hcutOn : fs.findOnRest q left s.2.seen dir path = findRecord (.cut dir path) := by
        rw [findOnRest, if_pos hcut]
      rw [findRest, if_pos hcut, hcutOn]
      exact .inr ⟨rfl, rfl, hlog.trans (List.prefix_append _ _)⟩
    · by_cases hdir : dir ∈ s.2.seen
      · rw [find_loop hcut hdir, findOn_loop hcut hdir]
        exact .inr ⟨rfl, rfl, hlog⟩
      · have htracks : Tracks (OfFind (Failed before)) (OfFind (OnPath before (dir :: s.2.seen)))
            (fs.findInner q (fs.find q left) dir path)
            (fs.findInner q (fs.findOn q left (dir :: s.2.seen)) dir path) :=
          findInner_tracks (quiet_failed before) (quiet_onPath before _) (find_tracks before left _)
            dir path
        have hinner := htracks.run (s.1, { s.2 with seen := dir :: s.2.seen }) ⟨rfl, hlog⟩
        rw [find_run hcut hdir, findOn_run hcut hdir]
        generalize fs.findInner q (fs.find q left) dir path
          (s.1, { s.2 with seen := dir :: s.2.seen }) = r at hinner
        rcases hinner with ⟨new, d, hfail⟩ | ⟨hrun, hseen, hgrow⟩
        · left
          refine ⟨new, d, ?_⟩
          cases r with
          | error e t => exact List.IsPrefix.trans hfail (List.prefix_append _ _)
          | ok u t => exact hfail
        · rw [hrun]
          cases r with
          | error e t =>
            obtain ⟨new, hnew⟩ := hgrow
            left
            refine ⟨new, dir, ?_⟩
            rw [hnew]
            exact List.prefix_refl _
          | ok u t =>
            right
            have herase : t.2.seen.erase dir = s.2.seen := by
              rw [show t.2.seen = dir :: s.2.seen from hseen, List.erase_cons_head]
            rw [leave, leave, herase]
            exact ⟨rfl, rfl, hgrow⟩

end Fs

namespace Image

/-- Two names of one directory, whose index is no list of entries or has none. -/
def namedTwice (index : List (Key × Bytes)) : List (Key × Bytes) :=
  [(⟨ROOT_DIR, INODE_ITEM_KEY, 0⟩, inodeItem 0 0o40755),
    (⟨ROOT_DIR, DIR_INDEX_KEY, 2⟩, dirItem 257 2 [0x61]),
    (⟨ROOT_DIR, DIR_INDEX_KEY, 3⟩, dirItem 257 2 [0x62]),
    (⟨257, INODE_ITEM_KEY, 0⟩, inodeItem 0 0o40755)] ++ index

def unlistable : List (Key × Bytes) := [(⟨257, DIR_INDEX_KEY, 2⟩, [0])]

def findAll : FindQuery := ⟨none, none, none, false, false, false⟩

def searched (index : List (Key × Bytes)) : FsState Unit × FindWork :=
  (cachedLeaves (volumeLeaves (namedTwice index)) (), FindWork.empty)

/-- The search of the whole filesystem. -/
def search (index : List (Key × Bytes)) :=
  (fs []).find findAll MAX_FIND_DEPTH ⟨FS_TREE_OBJECTID, ROOT_DIR⟩ ['/'] (searched index)

def searchOn (index : List (Key × Bytes)) :=
  (fs []).findOn findAll MAX_FIND_DEPTH [] ⟨FS_TREE_OBJECTID, ROOT_DIR⟩ ['/'] (searched index)

end Image

end BtrfsPeek
