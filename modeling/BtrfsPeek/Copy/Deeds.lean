import BtrfsPeek.Copy.Loops

/-!
# What a walk does

Copying and searching are walks through the same directories, so that what they do can be told in
the same words (`Deed`). An entry has its turn in a directory that was gone into, and under the
same path (`Copier.copy_pathed`, `Fs.find_pathed`).
-/

namespace BtrfsPeek

open Effect

variable {β η φ : Type}

/-- What a walk does. A directory has the path it is walked under. -/
inductive Deed
  /-- A directory is gone into. -/
  | entered (dir : Loc) (path : Text)
  /-- It is left at once: the host does not make it, or it is too deep to be searched. -/
  | barred (dir : Loc)
  | listed (dir : Loc)
  /-- The turn of one of its entries. -/
  | visited (dir : Loc) (path : Text) (e : Entry)
  /-- What is no directory is copied. -/
  | written (loc : Loc)
  /-- An error is what came of an entry. -/
  | failed (dir : Loc) (e : Entry) (err : Error)
  deriving DecidableEq

def CopyEvent.deed : CopyEvent η → Option Deed
  | .entered dir rel => some (.entered dir rel)
  | .denied dir _ => some (.barred dir)
  | .listed dir _ _ => some (.listed dir)
  | .visited dir rel e => some (.visited dir rel e)
  | .leaf loc _ _ => some (.written loc)
  | .tried dir e _ _ (.error err) => some (.failed dir e err)
  | _ => none

def FindEvent.deed : FindEvent → Option Deed
  | .entered dir path => some (.entered dir path)
  | .cut dir _ => some (.barred dir)
  | .listed dir => some (.listed dir)
  | .visited dir path e => some (.visited dir path e)
  | .failed dir e err => some (.failed dir e err)
  | _ => none

def copyDeeds (log : List (CopyEvent η)) : List Deed := log.filterMap CopyEvent.deed

def findDeeds (log : List FindEvent) : List Deed := log.filterMap FindEvent.deed

/-! ## Under which path -/

/-- An entry has its turn under a path that its directory was gone into under. -/
def Pathed (deeds : List Deed) : Prop :=
  ∀ before dir path e after, deeds = before ++ .visited dir path e :: after → .entered dir path ∈ before

theorem pathed_nil : Pathed [] := fun before _ _ _ _ h => by simp at h

theorem Pathed.add {deeds : List Deed} (h : Pathed deeds) {d : Deed}
    (hd : ∀ dir path e, d = .visited dir path e → .entered dir path ∈ deeds) : Pathed (deeds ++ [d]) := by
  intro before dir path e after heq
  rcases List.append_eq_append_iff.mp heq with ⟨more, hbefore, hmore⟩ | ⟨more, hdeeds, hmore⟩
  · -- It is the last one.
    cases more with
    | nil =>
      rw [List.append_nil] at hbefore
      exact hbefore ▸ hd dir path e (List.cons.inj hmore).1
    | cons x xs =>
      have := congrArg List.length hmore
      simp at this
  · cases more with
    | nil =>
      rw [List.append_nil] at hdeeds
      exact hdeeds ▸ hd dir path e (List.cons.inj hmore).1.symm
    | cons x xs =>
      obtain ⟨rfl, -⟩ := List.cons.inj hmore
      exact h before dir path e xs hdeeds

/-- What holds whatever else is done. -/
abbrev Growing (R : List Deed → Prop) : Prop := ∀ deeds d, R deeds → R (deeds ++ [d])

theorem Growing.entered {R : List Deed → Prop} (hR : Growing R) (dir : Loc) (path : Text) :
    Growing fun deeds => R deeds ∧ .entered dir path ∈ deeds :=
  fun deeds d h => ⟨hR deeds d h.1, List.mem_append_left _ h.2⟩

/-- What is recorded is something else, or an entry has its turn in such a directory. -/
theorem Pathed.record {α : Type} {deed : α → Option Deed} {R : List Deed → Prop} (hR : Growing R) {log : List α}
    (h : Pathed (log.filterMap deed) ∧ R (log.filterMap deed)) {ev : α}
    (hev : ∀ dir path e, deed ev = some (.visited dir path e) → .entered dir path ∈ log.filterMap deed) :
    Pathed ((log ++ [ev]).filterMap deed) ∧ R ((log ++ [ev]).filterMap deed) := by
  rw [List.filterMap_append]
  cases hd : deed ev with
  | none => rwa [List.filterMap_cons_none hd, List.filterMap_nil, List.append_nil]
  | some d =>
    rw [List.filterMap_cons_some hd, List.filterMap_nil]
    refine ⟨h.1.add fun dir path e he => hev dir path e ?_, hR _ d h.2⟩
    exact hd.trans (congrArg some he)

namespace Copier

variable {c : Copier β η φ} {R : List Deed → Prop}

/-- So far, entries had their turns under the paths of their directories, and `R` holds. -/
abbrev Pathing (R : List Deed → Prop) (w : Work η) : Prop := Pathed (copyDeeds w.log) ∧ R (copyDeeds w.log)

theorem respects_pathing : c.Respects (fun _ => True) (Pathing R) := respects_of_frame c fun _ _ _ h => h

theorem record_pathing (hR : Growing R) {ev : CopyEvent η}
    (hev : ∀ dir rel e, ev.deed ≠ some (.visited dir rel e)) :
    Keeps (OfWork (β := β) (Pathing R)) (record ev) :=
  Keeps.onSnd (Keeps.modify fun _ h => Pathed.record hR h fun dir rel e he => absurd he (hev dir rel e))

section entries

variable {recurse : Recurse β η} (hrec : ∀ {R : List Deed → Prop}, Growing R → ∀ loc src rel dest,
  Keeps (OfWork (Pathing R)) (recurse loc src rel dest))

include hrec

theorem tryEntry_pathing (hR : Growing R) (e : Entry) (dir : Loc) (src rel : Text) (dest : HostPath) :
    Keeps (OfWork (Pathing R)) (c.tryEntry recurse e dir src rel dest) := by
  have hleaf : Keeps (OfWork (Pathing R)) (c.copyLeaf e.loc src dest) :=
    copyLeaf_keeps respects_pathing e.loc src (fun _ h => Pathed.record hR h nofun) trivial trivial
  have hentry : Keeps (OfWork (Pathing R)) (c.copyEntry recurse e dir src rel dest) := by
    refine (skips_keeps _ e dir).bind fun skip => .ite (fun _ => ?_) fun _ => ?_
    · exact report_keeps (respects_pathing (c := c)) fun _ => .counts rfl rfl
    · exact (onFst_keeps _ _).bind fun i => .ite (fun _ => hrec hR _ _ _ _) fun _ => hleaf
  refine hentry.attempt.bind fun r => ?_
  cases r with
  | ok u => exact (record_pathing hR (by simp [CopyEvent.deed])).bind fun _ => .pure _
  | error err =>
    exact (record_pathing hR (by simp [CopyEvent.deed])).bind fun _ => Keeps.onSnd (Keeps.modify fun _ h => h)

theorem copyOne_pathing (hR : Growing R) {dir : Loc} {rel : Text} (src : Text) (dest : HostPath)
    (x : Entry × List Text) :
    Keeps (OfWork (Pathing fun deeds => R deeds ∧ .entered dir rel ∈ deeds))
      (c.copyOne recurse dir src rel dest x) := by
  have hR' := hR.entered dir rel
  have hreport (f : Report → Report) :
      Keeps (OfWork (Pathing fun deeds => R deeds ∧ .entered dir rel ∈ deeds)) (report f : CopyM β η Unit) :=
    Keeps.onSnd (Keeps.modify fun _ h => h)
  refine Keeps.bind (Keeps.onSnd (Keeps.modify fun _ h => Pathed.record hR' h ?_)) fun _ => ?_
  · rintro _ _ _ ⟨⟩
    exact h.2.2
  · cases c.give rel x.2 x.1 with
    | none => exact hreport _
    | some host =>
      refine .ite (fun _ => (hreport _).bind fun _ => ?_) fun _ => ?_
      all_goals exact .ite (fun _ => hreport _) fun _ => tryEntry_pathing hrec hR' _ _ _ _ _

theorem copyDirInner_pathing (hR : Growing R) {dir : Loc} {rel : Text} (src : Text) (dest : HostPath) :
    Keeps (OfWork (Pathing fun deeds => R deeds ∧ .entered dir rel ∈ deeds))
      (c.copyDirInner recurse dir src rel dest) := by
  have hR' := hR.entered dir rel
  refine (enter_keeps (respects_pathing (c := c)) dir src trivial).attempt.bind fun r => ?_
  cases r with
  | error err => exact (record_pathing hR' (by simp [CopyEvent.deed])).bind fun _ => .throw _
  | ok u =>
    refine (record_pathing hR' (by simp [CopyEvent.deed])).bind fun _ => (onFst_keeps _ _).bind fun es => ?_
    refine (record_pathing hR' (by simp [CopyEvent.deed])).bind fun _ => ?_
    refine Keeps.bind ?_ fun _ => setMtime_keeps respects_pathing dir trivial
    rw [copyEntries_eq]
    exact Ensures.forEach fun x _ => copyOne_pathing hrec hR src dest x

end entries

theorem copyDir_pathing : ∀ (left : Nat) {R : List Deed → Prop}, Growing R → ∀ dir src rel dest,
    Keeps (OfWork (Pathing R)) (c.copyDir left dir src rel dest)
  | 0, _, hR, _, _, _, _ => (record_pathing hR (by simp [CopyEvent.deed])).bind fun _ => .throw _
  | left + 1, R, hR, dir, src, rel, dest => by
    have hset {R : List Deed → Prop} (f : List Loc → List Loc) : Keeps (OfWork (Pathing R))
        (onSnd (modify fun w => { w with ancestors := f w.ancestors }) : CopyM β η PUnit) :=
      Keeps.onSnd (Keeps.modify fun _ h => h)
    have hbody : Keeps (OfWork (Pathing fun deeds => R deeds ∧ .entered dir rel ∈ deeds)) (do
        let w ← MonadState.get
        lift (bailIf (dir ∈ w.2.ancestors) (.msg "directory loops back to one of its own parents; skipped"))
        onSnd (modify fun w => { w with ancestors := dir :: w.ancestors })
        let r ← attempt (c.copyDirInner (c.copyDir left) dir src rel dest)
        onSnd (modify fun w => { w with ancestors := w.ancestors.erase dir })
        lift r : CopyM β η Unit) := by
      refine Keeps.get.bind fun w => (Keeps.lift _).bind fun _ => (hset fun l => dir :: l).bind fun _ => ?_
      refine (copyDirInner_pathing (copyDir_pathing left) hR src dest).attempt.bind fun r => ?_
      exact (hset fun l => l.erase dir).bind fun _ => .lift r
    refine Ensures.bind (Q := fun _ => OfWork (Pathing fun deeds => R deeds ∧ .entered dir rel ∈ deeds)) ?_
      fun _ => hbody.mono (fun _ h => h) (fun _ _ h => ⟨h.1, h.2.1⟩) fun _ _ h => ⟨h.1, h.2.1⟩
    intro t ht
    have h : Pathing R { t.2 with log := t.2.log ++ [.entered dir rel] } := Pathed.record hR ht nofun
    refine ⟨h.1, h.2, ?_⟩
    exact List.mem_filterMap.mpr ⟨_, List.mem_append_right _ List.mem_cons_self, rfl⟩

/-- An entry has its turn under the path of the directory that is copied. -/
theorem copy_pathed (src : Loc) (srcPath : Text) (dest : HostPath) :
    Keeps (OfWork fun w => Pathed (copyDeeds w.log)) (c.copy src srcPath dest) := by
  have hR : Growing fun _ => True := fun _ _ _ => trivial
  have hleaf (dest : HostPath) : Keeps (OfWork (Pathing fun _ => True)) (c.copyLeaf src srcPath dest) :=
    copyLeaf_keeps respects_pathing src srcPath (fun _ h => Pathed.record hR h nofun) trivial trivial
  have hkeep : Keeps (OfWork (Pathing fun _ => True)) (c.copy src srcPath dest) := by
    refine (onFst_keeps _ _).bind fun i => .ite (fun _ => copyDir_pathing _ hR _ _ _ _) fun _ => ?_
    refine (Keeps.onSnd (hostCall_frame (fun _ _ h => h) _ _)).attempt.bind fun r => ?_
    split <;> exact hleaf _
  exact hkeep.mono (fun _ h => ⟨h, trivial⟩) (fun _ _ h => h.1) fun _ _ h => h.1

end Copier

namespace Fs

variable {fs : Fs β} {q : FindQuery} {R : List Deed → Prop}

abbrev Pathing (R : List Deed → Prop) (w : FindWork) : Prop := Pathed (findDeeds w.log) ∧ R (findDeeds w.log)

theorem findRecord_pathing (hR : Growing R) {ev : FindEvent}
    (hev : ∀ dir path e, ev.deed ≠ some (.visited dir path e)) :
    Keeps (OfFind (β := β) (Pathing R)) (findRecord ev) :=
  Keeps.onSnd (Keeps.modify fun _ h => Pathed.record hR h fun dir path e he => absurd he (hev dir path e))

/-- What is no matter of the log. -/
theorem onFind_pathing {f : FindWork → FindWork} (hf : ∀ w, (f w).log = w.log) :
    Keeps (OfFind (β := β) (Pathing R)) (onFind f) :=
  Keeps.onSnd (Keeps.modify fun w h => by
    show Pathed (findDeeds (f w).log) ∧ R (findDeeds (f w).log)
    rwa [hf])

section entries

variable {search : Search β} (hsearch : ∀ {R : List Deed → Prop}, Growing R → ∀ dir path,
  Keeps (OfFind (Pathing R)) (search dir path))

include hsearch

theorem findOne_pathing (hR : Growing R) {dir : Loc} {path : Text} (e : Entry) :
    Keeps (OfFind (Pathing fun deeds => R deeds ∧ .entered dir path ∈ deeds)) (fs.findOne q search dir path e) := by
  have hR' := hR.entered dir path
  refine Keeps.bind (Keeps.onSnd (Keeps.modify fun _ h => Pathed.record hR' h ?_)) fun _ => ?_
  · rintro _ _ _ ⟨⟩
    exact h.2.2
  have hshow : Keeps (OfFind (Pathing fun deeds => R deeds ∧ .entered dir path ∈ deeds))
      (showMatch q e (join path e.nameLossy) : FindM β Unit) := by
    refine .ite (fun _ => .ite (fun _ => ?_) fun _ => ?_) fun _ => .pure _
    · exact (onFind_pathing fun _ => rfl).bind fun _ => onFind_pathing fun _ => rfl
    · exact onFind_pathing fun _ => rfl
  refine hshow.bind fun _ => (findSkips_keeps _ e).bind fun skip => ?_
  refine .ite (fun _ => (hsearch hR' _ _).attempt.bind fun r => ?_) fun _ => .pure _
  cases r with
  | ok u => exact .pure _
  | error err => exact (findRecord_pathing hR' (by simp [FindEvent.deed])).bind fun _ => onFind_pathing fun _ => rfl

theorem findInner_pathing (hR : Growing R) {dir : Loc} {path : Text} :
    Keeps (OfFind (Pathing fun deeds => R deeds ∧ .entered dir path ∈ deeds)) (fs.findInner q search dir path) := by
  refine (findFst_keeps _ _).bind fun es => ?_
  refine (findRecord_pathing (hR.entered dir path) (by simp [FindEvent.deed])).bind fun _ => ?_
  rw [findEntries_eq]
  exact Ensures.forEach fun e _ => findOne_pathing hsearch hR e

end entries

theorem find_pathing : ∀ (left : Nat) {R : List Deed → Prop}, Growing R → ∀ dir path,
    Keeps (OfFind (Pathing R)) (fs.find q left dir path)
  | 0, _, hR, _, _ =>
    (findRecord_pathing hR (by simp [FindEvent.deed])).bind fun _ => findRecord_pathing hR (by simp [FindEvent.deed])
  | left + 1, R, hR, dir, path => by
    have hR' := hR.entered dir path
    refine Ensures.bind (Q := fun _ => OfFind (Pathing fun deeds => R deeds ∧ .entered dir path ∈ deeds)) ?_
      fun _ => Ensures.mono (?_ : Keeps (OfFind (Pathing fun deeds => R deeds ∧ .entered dir path ∈ deeds)) _)
        (fun _ h => h) (fun _ _ h => ⟨h.1, h.2.1⟩) fun _ _ h => ⟨h.1, h.2.1⟩
    · intro t ht
      have h : Pathing R { t.2 with log := t.2.log ++ [.entered dir path] } := Pathed.record hR ht (by simp [FindEvent.deed])
      refine ⟨h.1, h.2, ?_⟩
      exact List.mem_filterMap.mpr ⟨_, List.mem_append_right _ List.mem_cons_self, rfl⟩
    · refine .ite (fun _ => findRecord_pathing hR' (by simp [FindEvent.deed])) fun _ => ?_
      refine Keeps.get.bind fun w => (Keeps.lift _).bind fun _ => ?_
      refine Keeps.bind (onFind_pathing (by intro; rfl)) fun _ => ?_
      refine (findInner_pathing (find_pathing left) hR).attempt.bind fun r => ?_
      cases r with
      | error e => exact (findRecord_pathing hR' (by simp [FindEvent.deed])).bind fun _ => .throw _
      | ok u => exact onFind_pathing fun _ => rfl

/-- An entry has its turn under the path of the directory that is searched. -/
theorem find_pathed (left : Nat) (dir : Loc) (path : Text) :
    Keeps (OfFind fun w => Pathed (findDeeds w.log)) (fs.find q left dir path) :=
  (find_pathing left (R := fun _ => True) (fun _ _ _ => trivial) dir path).mono (fun _ h => ⟨h, trivial⟩)
    (fun _ _ h => h.1) fun _ _ h => h.1

end Fs

end BtrfsPeek
