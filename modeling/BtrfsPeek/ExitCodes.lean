import BtrfsPeek.Commands

/-!
# Exit codes

`main` goes by the kind of an error alone, and a device or the host may answer with the
kind that a closed pipe gives. In a run where none does the exit code is right
(`System.exitsRight_of_unnoted`).
-/

namespace BtrfsPeek

open Effect

variable {β η φ ω : Type}

namespace Error

/-- The `std::io::Error` in the chain, if there is one. -/
def ioError : Error → Option IoError
  | .io e => some e
  | .context _ e => e.ioError
  | _ => none

/-- A write to standard output failed. -/
def FromStdout (e : Error) : Prop := ∃ io ∈ e.ioError, io.origin = .stdout

/-- Something else failed, with the kind that a closed pipe gives. -/
def BrokenElsewhere (e : Error) : Prop :=
  ∃ io ∈ e.ioError, io.kind = .brokenPipe ∧ io.origin ≠ .stdout

theorem any_isBrokenPipe (e : Error) :
    e.chain.any isBrokenPipe = true ↔ ∃ io ∈ e.ioError, io.kind = .brokenPipe := by
  induction e with
  | context text e ih => simpa [chain, ioError, isBrokenPipe] using ih
  | _ => simp [chain, ioError, isBrokenPipe]

/-- Of a closed pipe, it is standard output or something else. -/
theorem brokenElsewhere_iff {e : Error} (h : e.chain.any isBrokenPipe = true) :
    e.BrokenElsewhere ↔ ¬ e.FromStdout := by
  obtain ⟨io, hio, hkind⟩ := (any_isBrokenPipe e).mp h
  have heq : ∀ io' ∈ e.ioError, io' = io := fun io' h => Option.mem_unique h hio
  constructor
  · rintro ⟨io₁, h₁, -, horigin⟩ ⟨io₂, h₂, hstdout⟩
    rw [heq io₁ h₁] at horigin
    rw [heq io₂ h₂] at hstdout
    exact horigin hstdout
  · intro hnot
    exact ⟨io, hio, hkind, fun hstdout => hnot ⟨io, hio, hstdout⟩⟩

theorem not_brokenElsewhere {e : Error} (h : ¬ e.chain.any isBrokenPipe = true) :
    ¬ e.BrokenElsewhere := by
  rintro ⟨io, hio, hkind, -⟩
  exact h ((any_isBrokenPipe e).mpr ⟨io, hio, hkind⟩)

theorem exitCode_pos (e : Error) : e.exitCode ≠ 0 := by
  unfold exitCode
  split_ifs <;> decide

/-- What the program makes itself is of none of them, where reads past the end of a device
and streams that do not decode are not. -/
theorem closed_of_ioError {P : IoError → Prop} (heof : ∀ text, ¬ P ⟨.unexpectedEof, text, .device⟩)
    (hdata : ∀ text, ¬ P ⟨.invalidData, text, .device⟩) : Error.Closed fun e => ¬ ∃ io ∈ e.ioError, P io where
  msg _ := by simp [ioError]
  notFound _ := by simp [ioError]
  accessDenied := by simp [ioError]
  incomplete _ := by simp [ioError]
  json _ := by simp [ioError]
  pastEnd _ := by simpa [ioError] using heof _
  undecodable _ := by simpa [ioError] using hdata _
  context h := h

theorem closed_not_brokenElsewhere : Error.Closed fun e => ¬ e.BrokenElsewhere :=
  closed_of_ioError (by simp) (by simp)

theorem closed_not_fromStdout : Error.Closed fun e => ¬ e.FromStdout :=
  closed_of_ioError (by simp) (by simp)

end Error

namespace System

variable (S : System β η φ ω)

/-- A `cp`, as far as the report of its copy. -/
def copied (devices : List String) (src : Text) (dest : HostPath) (exclude : List Text)
    (force oneSubvolume noSnapshots : Bool) (manifest : Option HostPath) : RunM β η ω Report := do
  let fs ← onFs (Fs.open S.platform S.crates S.opener devices)
  printLines S.stderr ((warnings fs).map String.toList)
  let globs ← question (S.excludeGlobs exclude)
  S.createManifest manifest
  let loc ← onFs (fs.resolve src)
  let exclude ← question ((S.globSet globs).mapError .msg)
  let opts : Options := { exclude, force, oneSubvolume, noSnapshots, manifest := manifest.isSome }
  runCopy ⟨fs, S.host, opts, S.platform, S.unicode⟩ loc src dest

/-- A failed read never looks like success. -/
structure ExitsRight (devices : List String) (json : Bool) (cmd : Cmd) (w : World β η ω) : Prop where
  /-- An error that is not of standard output is printed, and the code is not 0. -/
  failed {e : Error} {w' : World β η ω} : S.run devices json cmd w = .error (.failed e) w' →
    ¬ e.FromStdout → (S.main devices json cmd w).1 ≠ 0 ∧
      (S.main devices json cmd w).2 = Result.state (S.eprintln s!"btrfs-peek: {e.display}" w')
  /-- The code is 0 only if the run returned, or standard output failed. -/
  zero : (S.main devices json cmd w).1 = 0 →
    (∃ w', S.run devices json cmd w = .ok () w') ∨
      ∃ e w', S.run devices json cmd w = .error (.failed e) w' ∧ e.FromStdout
  /-- That of a copy only if it came to its end and nothing of it failed. -/
  complete {src : Text} {dest : HostPath} {exclude : List Text} {force oneSubvolume noSnapshots : Bool}
    {manifest : Option HostPath} : cmd = .cp src dest exclude force oneSubvolume noSnapshots manifest →
    (S.main devices json cmd w).1 = 0 → ∃ r w',
      S.copied devices src dest exclude force oneSubvolume noSnapshots manifest w = .ok r w' ∧ r.failures = 0

/-- The run fails with the kind that a closed pipe gives, and it was not standard output. -/
def BreaksElsewhere (devices : List String) (json : Bool) (cmd : Cmd) (w : World β η ω) : Prop :=
  ∃ e w', S.run devices json cmd w = .error (.failed e) w' ∧ e.BrokenElsewhere

end System

/-- What a run stops with, if it is an error. -/
def Stop.Within (E : Error → Prop) : Stop → Prop
  | .failed e => E e
  | .panicked => True

section runs

variable [Noting β] [Noting η] {E : Error → Prop}

/-- A note of a device's or of the host's. -/
instance : Noting (World β η ω) := ⟨fun w => hasNote w.fs ∨ hasNote w.host⟩

/-- Of one part of the world, whose notes are the world's. -/
theorem onPart_fails {σ α : Type} [Noting σ] {get : World β η ω → σ}
    {set : World β η ω → σ → World β η ω} {x : EStateM Error σ α} (hx : FailsWith E x)
    (hset : ∀ w s, hasNote w → (hasNote (get w) → hasNote s) → hasNote (set w s))
    (hnote : ∀ w s, hasNote s → hasNote (set w s)) :
    FailsWith (Stop.Within E) (onPart get set x) := by
  refine ⟨fun w hw => ?_, fun w stop w' h => ?_⟩
  · unfold onPart
    cases hr : x (get w) with
    | ok a s => exact hset w s hw fun h => hx.keeps.ok h hr
    | error e s => exact hset w s hw fun h => hx.keeps.error h hr
  · unfold onPart at h
    cases hr : x (get w) with
    | ok a s => rw [hr] at h; cases h
    | error e s =>
      rw [hr] at h
      obtain ⟨rfl, rfl⟩ := EStateM.Result.error.inj h
      exact (hx.errs _ e s hr).imp_right (hnote w s)

theorem onFs_fails {α : Type} {x : FsM β α} (hx : FailsWith E x) :
    FailsWith (Stop.Within E) (onFs x : RunM β η ω α) :=
  onPart_fails hx (fun _ _ hw h => hw.imp_left h) fun _ _ => .inl

omit [Noting β] [Noting η] in
theorem onFs_ok {α : Type} {x : FsM β α} {a : α} {w w' : World β η ω} (h : onFs x w = .ok a w') :
    ∃ s', x w.fs = .ok a s' := by
  unfold onFs onPart at h
  cases hr : x w.fs with
  | ok b s =>
    rw [hr] at h
    exact ⟨s, congrArg (EStateM.Result.ok · s) (EStateM.Result.ok.inj h).1⟩
  | error e s =>
    rw [hr] at h
    cases h

theorem question_fails {α : Type} {r : Except Error α} (hr : Errs E r) :
    FailsWith (Stop.Within E) (question r : RunM β η ω α) := onFs_fails (.lift hr)

theorem printLine_fails (out : Stdout ω) (t : Text) :
    FailsWith (Stop.Within E) (printLine out t : RunM β η ω Unit) := by
  refine ⟨fun w hw => ?_, fun w stop w' h => .inl ?_⟩
  · unfold printLine
    cases out.writeAll (Utf8.toUtf8 (t ++ ['\n'])) w.term <;> exact hw
  · unfold printLine at h
    cases hr : out.writeAll (Utf8.toUtf8 (t ++ ['\n'])) w.term with
    | ok a o => rw [hr] at h; cases h
    | error e o =>
      rw [hr] at h
      rw [← (EStateM.Result.error.inj h).1]
      trivial

theorem printLines_fails (out : Stdout ω) (ts : List Text) :
    FailsWith (Stop.Within E) (printLines out ts : RunM β η ω Unit) :=
  FailsWith.forEach (printLine_fails out) ts

/-- What a search that is caught failed with may be thrown again. -/
theorem caught_fails {τ α : Type} [Noting τ] {x : EStateM Error (FsState β × τ) α} (hx : FailsWith E x)
    (hτ : ∀ t : τ, ¬ hasNote t) (t : τ) {f : Except Error α × τ → RunM β η ω Unit}
    (hf : ∀ r, FailsWith (Stop.Within fun e => E e ∨ r.1 = .error e) (f r)) :
    FailsWith (Stop.Within E) (onFs (withLocal t (attempt x)) >>= f) := by
  have hcaught : FailsWith (Stop.Within E) (onFs (withLocal t (attempt x)) : RunM β η ω _) :=
    onFs_fails ((FailsWith.caught hx.keeps).withLocal hτ t)
  refine ⟨hcaught.keeps.bind fun r => (hf r).keeps, fun w stop w' h => ?_⟩
  rcases bind_error_iff.mp h with h | ⟨r, w₁, hr, h⟩
  · exact hcaught.errs w stop w' h
  · refine ((hf r).errs w₁ stop w' h).elim (fun hstop => ?_) .inr
    cases stop with
    | panicked => exact .inl trivial
    | failed e =>
      rcases hstop with he | he
      · exact .inl he
      · -- the search failed with it, and what is noted then still is
        obtain ⟨rfl, rfl⟩ := EStateM.Result.ok.inj hr
        cases hx' : x (w.fs, t) with
        | ok a s =>
          rw [hx'] at he
          cases he
        | error e' s =>
          rw [hx'] at he h
          obtain rfl := Except.error.inj he
          refine (hx.errs _ _ s hx').imp id fun hs => (hf _).keeps.error (.inl ?_) h
          exact hs.resolve_right (hτ _)

namespace System

variable {S : System β η φ ω}

theorem println_fails (t : Text) : FailsWith (Stop.Within E) (S.println t) := printLine_fails S.stdout t

variable {fs : Fs β} (hE : Error.Closed E) (hfs : fs.Answers E) (json : Bool)

include hE hfs

theorem runInfo_fails : FailsWith (Stop.Within E) (S.runInfo json fs) :=
  (onFs_fails (Fs.defaultSubvol_fails hE hfs)).bind fun _ =>
    .ite (fun _ => println_fails _) fun _ => printLines_fails _ _

theorem runSubvols_fails : FailsWith (Stop.Within E) (S.runSubvols json fs) :=
  (onFs_fails (Fs.subvols_fails hE hfs)).bind fun _ =>
    (onFs_fails (Fs.defaultSubvol_fails hE hfs)).bind fun _ =>
      .ite (fun _ => println_fails _) fun _ => printLines_fails _ _

theorem runLs_fails (path : Text) (long : Bool) :
    FailsWith (Stop.Within E) (S.runLs json fs path long) := by
  have hdescribe (loc : Loc) (path : Text) (subvol : Bool) := Fs.describe_fails hE hfs loc path subvol
  refine (onFs_fails (Fs.resolve_fails hE hfs path)).bind fun loc => ?_
  refine (onFs_fails (Fs.inode_fails hE hfs loc)).bind fun i => .ite (fun _ => ?_) fun _ => ?_
  · exact (onFs_fails (hdescribe _ _ _)).bind fun row =>
      .ite (fun _ => println_fails _) fun _ => println_fails _
  · refine (onFs_fails (Fs.readdir_fails hE hfs loc)).bind fun es => .ite (fun _ => ?_) fun _ => printLines_fails _ _
    exact (onFs_fails (FailsWith.mapEach (fun e => hdescribe _ _ _) es)).bind fun rows =>
      .ite (fun _ => println_fails _) fun _ => printLines_fails _ _

theorem runStat_fails (path : Text) : FailsWith (Stop.Within E) (S.runStat json fs path) :=
  (onFs_fails (Fs.resolve_fails hE hfs path)).bind fun loc =>
    (onFs_fails (Fs.stat_fails hE hfs loc path)).bind fun _ =>
      .ite (fun _ => println_fails _) fun _ => printLines_fails _ _

theorem runCat_fails (hout : OfStdout E) (path : Text) (offset : Nat) (length : Option Nat) :
    FailsWith (Stop.Within E) (S.runCat fs path offset length) :=
  let : Noting ω := .never
  onPart_fails (Fs.cat_fails hE hfs hout S.stdout path offset length)
    (fun _ _ hw h => hw.imp_left fun hs => (h (.inl hs)).resolve_right id)
    fun _ _ h => .inl (h.resolve_right id)

theorem runFind_fails (path : Text) (name : Option Text) (ty : Option Char) (maxDepth : Option Nat)
    (oneSubvolume noSnapshots : Bool) :
    FailsWith (Stop.Within E) (S.runFind json fs path name ty maxDepth oneSubvolume noSnapshots) := by
  have hname : Errs E (S.nameGlob name) := by
    unfold nameGlob
    split
    · exact .ok _
    · split
      · exact .ok _
      · exact .error (hE.context (hE.msg _))
  refine (question_fails (bailIf_errs hE _ _)).bind fun _ => (question_fails hname).bind fun name => ?_
  refine caught_fails (Fs.findPath_fails hE hfs _ path) (fun _ h => h) _ fun r => ?_
  refine FailsWith.bind (printLines_fails _ _) fun _ => FailsWith.bind (printLines_fails _ _) fun _ => ?_
  exact (question_fails fun _ h => .inr h).bind fun _ => .ite (fun _ => println_fails _) fun _ => .pure _

omit hfs in
theorem createManifest_fails (hhost : S.host.Answers E) (manifest : Option HostPath) :
    FailsWith (Stop.Within E) (S.createManifest manifest : RunM β η ω Unit) := by
  cases manifest with
  | none => exact .pure _
  | some path =>
    have hcall : FailsWith (fun e => E (.io (e.at .host))) (S.host.create path) := hhost.call (.create trivial)
    refine ⟨fun w hw => ?_, fun w stop w' h => ?_⟩
    · simp only [createManifest]
      cases hr : S.host.create path w.host with
      | ok f t => exact hw.imp_right fun h => hcall.keeps.ok h hr
      | error e t => exact hw.imp_right fun h => hcall.keeps.error h hr
    · simp only [createManifest] at h
      cases hr : S.host.create path w.host with
      | ok f t => rw [hr] at h; cases h
      | error e t =>
        rw [hr] at h
        obtain ⟨rfl, rfl⟩ := EStateM.Result.error.inj h
        exact (hcall.errs _ e t hr).imp hE.context .inr

omit hE hfs in
theorem runCopy_fails {c : Copier β η φ} {loc : Loc} {src : Text} {dest : HostPath}
    (hc : FailsWith E (c.copy loc src dest)) :
    FailsWith (Stop.Within E) (runCopy c loc src dest : RunM β η ω Report) := by
  refine ⟨fun w hw => ?_, fun w stop w' h => ?_⟩
  · unfold runCopy
    cases hr : c.copy loc src dest (w.fs, Work.start w.host) with
    | ok u s => exact hc.keeps.ok (s := (w.fs, Work.start w.host)) hw hr
    | error e s => exact hc.keeps.error (s := (w.fs, Work.start w.host)) hw hr
  · unfold runCopy at h
    cases hr : c.copy loc src dest (w.fs, Work.start w.host) with
    | ok u s => rw [hr] at h; cases h
    | error e s =>
      rw [hr] at h
      obtain ⟨rfl, rfl⟩ := EStateM.Result.error.inj h
      exact hc.errs _ e s hr

omit [Noting β] [Noting η] hfs in
theorem excludeGlobs_errs : ∀ es, Errs E (S.excludeGlobs es)
  | [] => .ok _
  | e :: es => by
    unfold excludeGlobs
    split
    · exact .error (hE.context (hE.msg _))
    · exact (excludeGlobs_errs es).bind fun _ => .ok _

theorem runCp_fails (hhost : S.host.Answers E) (src : Text) (dest : HostPath) (exclude : List Text)
    (force oneSubvolume noSnapshots : Bool) (manifest : Option HostPath) :
    FailsWith (Stop.Within E)
      (S.runCp json fs src dest exclude force oneSubvolume noSnapshots manifest) := by
  have hcopy (c : Copier β η φ) (hc : c.fs.Answers E) (hh : c.host.Answers E) (loc : Loc) :
      FailsWith (Stop.Within E) (runCopy c loc src dest : RunM β η ω Report) :=
    runCopy_fails (Copier.copy_fails hE hc hh loc src dest)
  have hset (globs : List (Text → Bool)) : Errs E ((S.globSet globs).mapError Error.msg) := by
    cases S.globSet globs with
    | ok g => exact .ok _
    | error text => exact .error (hE.msg _)
  have hend (r : Report) : FailsWith (Stop.Within E)
      (if r.failures > 0 then failWith (.incomplete r.failures) else pure () : RunM β η ω Unit) :=
    .ite (fun _ => .throw (hE.incomplete _)) fun _ => .pure _
  refine (question_fails (excludeGlobs_errs hE _)).bind fun globs => ?_
  refine (createManifest_fails hE hhost manifest).bind fun _ => ?_
  refine (onFs_fails (Fs.resolve_fails hE hfs src)).bind fun loc => (question_fails (hset globs)).bind fun _ => ?_
  refine (hcopy _ hfs hhost loc).bind fun r => .ite (fun _ => (println_fails _).bind fun _ => hend r) fun _ => ?_
  exact (printLines_fails _ _).bind fun _ => (println_fails _).bind fun _ => hend r

theorem runCmd_fails (hout : OfStdout E) (hhost : S.host.Answers E) :
    ∀ cmd, FailsWith (Stop.Within E) (S.runCmd json fs cmd)
  | .info => runInfo_fails hE hfs json
  | .subvols => runSubvols_fails hE hfs json
  | .ls path long => runLs_fails hE hfs json path long
  | .stat path => runStat_fails hE hfs json path
  | .cat path offset length => runCat_fails hE hfs hout path offset length
  | .find path name ty maxDepth oneSubvolume noSnapshots =>
    runFind_fails hE hfs json path name ty maxDepth oneSubvolume noSnapshots
  | .cp src dest exclude force oneSubvolume noSnapshots manifest =>
    runCp_fails hE hfs json hhost src dest exclude force oneSubvolume noSnapshots manifest

omit hfs in
theorem run_fails (hopen : Fs.OpenAnswers E S.opener) (devices : List String) {cmd : Cmd}
    (hcmd : ∀ fs, Fs.Answers E fs → FailsWith (Stop.Within E) (S.runCmd json fs cmd)) :
    FailsWith (Stop.Within E) (S.run devices json cmd) := by
  refine FailsWith.bind_of (onFs_fails (Fs.open_fails hE S.platform S.crates hopen devices))
    (fun w fs w' h => ?_) fun fs hfs => (printLines_fails _ _).bind fun _ => hcmd fs hfs
  obtain ⟨s', hs⟩ := onFs_ok h
  exact Fs.open_ok S.platform S.crates hopen hs

end System

end runs

namespace System

variable {S : System β η φ ω}

/-! ## A copy that came to its end -/

/-- What a `cp` fails with is never of standard output. -/
theorem cp_not_fromStdout {devices : List String} {json : Bool} {src : Text} {dest : HostPath}
    {exclude : List Text} {force oneSubvolume noSnapshots : Bool} {manifest : Option HostPath}
    {w w' : World β η ω} {e : Error}
    (h : S.run devices json (.cp src dest exclude force oneSubvolume noSnapshots manifest) w =
      .error (.failed e) w') : ¬ e.FromStdout := by
  -- nothing is noted, as what the devices and the host answer is theirs
  let : Noting β := .never
  let : Noting η := .never
  have hE := Error.closed_not_fromStdout
  have hof {o : Origin} (ho : o ≠ .stdout) (e : OsError) : ¬ (Error.io (e.at o)).FromStdout := by
    rintro ⟨_, ⟨⟩, h⟩
    exact ho h
  have hdev (B : Backing β) : B.Answers fun e => ¬ e.FromStdout :=
    fun _ _ _ _ _ _ => ⟨id, fun e _ => .inl (hof (by decide) e)⟩
  have hhost : S.host.Answers fun e => ¬ e.FromStdout :=
    ⟨fun _ => ⟨.of_false, fun _ e _ _ => .inl (hof (by decide) e)⟩, fun _ => ⟨.of_false, fun _ _ _ _ => .inl trivial⟩⟩
  have hopen : Fs.OpenAnswers (fun e => ¬ e.FromStdout) S.opener :=
    fun _ _ _ _ _ => ⟨id, fun e _ => .inl (hof (by decide) e), fun B _ => hdev B⟩
  refine ((run_fails hE json hopen devices fun fs hfs => ?_).errs w _ w' h).resolve_right (by rintro (h | h) <;> exact h)
  exact runCp_fails hE hfs json hhost src dest exclude force oneSubvolume noSnapshots manifest

/-- One that returns has copied everything it tried to. -/
theorem copied_of_run {devices : List String} {json : Bool} {src : Text} {dest : HostPath}
    {exclude : List Text} {force oneSubvolume noSnapshots : Bool} {manifest : Option HostPath}
    {w w' : World β η ω}
    (h : S.run devices json (.cp src dest exclude force oneSubvolume noSnapshots manifest) w = .ok () w') :
    ∃ r w₁, S.copied devices src dest exclude force oneSubvolume noSnapshots manifest w = .ok r w₁ ∧
      r.failures = 0 := by
  obtain ⟨fs, w₁, hopen, h⟩ := bind_ok_iff.mp h
  obtain ⟨_, w₂, hwarn, h⟩ := bind_ok_iff.mp h
  obtain ⟨globs, w₃, hglobs, h⟩ := bind_ok_iff.mp h
  obtain ⟨_, w₄, hmanifest, h⟩ := bind_ok_iff.mp h
  obtain ⟨loc, w₅, hloc, h⟩ := bind_ok_iff.mp h
  obtain ⟨set, w₆, hset, h⟩ := bind_ok_iff.mp h
  obtain ⟨r, w₇, hcopy, h⟩ := bind_ok_iff.mp h
  refine ⟨r, w₇, ?_, ?_⟩
  · exact (bind_of_ok hopen).trans <| (bind_of_ok hwarn).trans <| (bind_of_ok hglobs).trans <|
      (bind_of_ok hmanifest).trans <| (bind_of_ok hloc).trans <| (bind_of_ok hset).trans hcopy
  · by_contra hne
    -- the end of the command fails, whatever was printed before
    have hend {w₈ w₉ : World β η ω} (h : (if r.failures > 0 then failWith (.incomplete r.failures) else
        Pure.pure () : RunM β η ω Unit) w₈ = .ok () w₉) : False := by
      rw [if_pos (Nat.pos_of_ne_zero hne)] at h
      cases h
    cases json with
    | true =>
      obtain ⟨_, w₈, -, h⟩ := bind_ok_iff.mp h
      exact hend h
    | false =>
      obtain ⟨_, w₈, -, h⟩ := bind_ok_iff.mp h
      obtain ⟨_, w₉, -, h⟩ := bind_ok_iff.mp h
      exact hend h

/-! ## The exit code -/

/-- That a copy is complete follows. -/
theorem ExitsRight.of {devices : List String} {json : Bool} {cmd : Cmd} {w : World β η ω}
    (failed : ∀ {e w'}, S.run devices json cmd w = .error (.failed e) w' → ¬ e.FromStdout →
      (S.main devices json cmd w).1 ≠ 0 ∧
        (S.main devices json cmd w).2 = Result.state (S.eprintln s!"btrfs-peek: {e.display}" w'))
    (zero : (S.main devices json cmd w).1 = 0 → (∃ w', S.run devices json cmd w = .ok () w') ∨
      ∃ e w', S.run devices json cmd w = .error (.failed e) w' ∧ e.FromStdout) :
    S.ExitsRight devices json cmd w where
  failed := failed
  zero := zero
  complete {src dest exclude force oneSubvolume noSnapshots manifest} hcmd h := by
    subst hcmd
    rcases zero h with ⟨w', hrun⟩ | ⟨e, w', hrun, he⟩
    · exact copied_of_run hrun
    · exact absurd he (cp_not_fromStdout hrun)

/-- Of the error that `main` is given, only one thing matters. -/
theorem exitsRight_iff_of_failed {devices : List String} {json : Bool} {cmd : Cmd} {w w' : World β η ω}
    {e : Error} (hr : S.run devices json cmd w = .error (.failed e) w') :
    S.ExitsRight devices json cmd w ↔ ¬ e.BrokenElsewhere := by
  have hsame {e₁ : Error} {w₁ : World β η ω} (h : S.run devices json cmd w = .error (.failed e₁) w₁) :
      e = e₁ ∧ w' = w₁ := by
    rw [hr] at h
    obtain ⟨hstop, hw⟩ := EStateM.Result.error.inj h
    exact ⟨Stop.failed.inj hstop, hw⟩
  by_cases hpipe : e.chain.any Error.isBrokenPipe = true
  · have hmain : S.main devices json cmd w = (0, w') := by simp only [main, hr, hpipe, if_true]
    rw [Error.brokenElsewhere_iff hpipe, not_not]
    constructor
    · intro h
      by_contra hnot
      exact (h.failed hr hnot).1 (by rw [hmain])
    · intro hstdout
      refine .of (fun h hnot => ?_) fun _ => .inr ⟨e, w', hr, hstdout⟩
      obtain ⟨rfl, -⟩ := hsame h
      exact absurd hstdout hnot
  · -- the error is printed
    have hmain : (S.main devices json cmd w).1 ≠ 0 ∧
        (S.main devices json cmd w).2 = Result.state (S.eprintln s!"btrfs-peek: {e.display}" w') := by
      simp only [main, hr, hpipe]
      cases S.eprintln s!"btrfs-peek: {e.display}" w' with
      | ok u w'' => exact ⟨e.exitCode_pos, rfl⟩
      | error stop w'' => exact ⟨show PANIC ≠ 0 by decide, rfl⟩
    refine iff_of_true (.of (fun h _ => ?_) fun h => absurd h hmain.1) (Error.not_brokenElsewhere hpipe)
    obtain ⟨rfl, rfl⟩ := hsame h
    exact hmain

variable (S) in
/-- The exit code goes by the error alone. -/
theorem exitsRight_iff_not_breaks (devices : List String) (json : Bool) (cmd : Cmd) (w : World β η ω) :
    S.ExitsRight devices json cmd w ↔ ¬ S.BreaksElsewhere devices json cmd w := by
  cases hr : S.run devices json cmd w with
  | ok u w' =>
    have hmain : S.main devices json cmd w = (0, w') := by rw [main, hr]
    refine iff_of_true (.of (fun h => ?_) fun _ => .inl ⟨w', hr⟩) ?_
    · rw [hr] at h
      cases h
    · rintro ⟨e, w₁, h, -⟩
      rw [hr] at h
      cases h
  | error stop w' =>
    cases stop with
    | panicked =>
      have hmain : S.main devices json cmd w = (PANIC, w') := by rw [main, hr]
      refine iff_of_true (.of (fun h => ?_) fun h => ?_) ?_
      · rw [hr] at h
        cases h
      · rw [hmain] at h
        exact absurd h (show PANIC ≠ 0 by decide)
      · rintro ⟨e, w₁, h, -⟩
        rw [hr] at h
        cases h
    | failed e =>
      rw [exitsRight_iff_of_failed hr]
      refine not_congr ⟨fun he => ⟨e, w', hr, he⟩, ?_⟩
      rintro ⟨e₁, w₁, h, he⟩
      rw [hr] at h
      obtain ⟨h, -⟩ := EStateM.Result.error.inj h
      rwa [Stop.failed.inj h]

/-- Wherever a device or the host answers with the kind that a closed pipe gives, there is a
note of it in its state from then on. -/
structure Notes [Noting β] [Noting η] (S : System β η φ ω) : Prop where
  devices : Fs.OpenAnswers (fun e => ¬ e.BrokenElsewhere) S.opener
  host : S.host.Answers fun e => ¬ e.BrokenElsewhere

/-- A run that fails so has a note of it. -/
theorem Notes.not_breaks [Noting β] [Noting η] (h : S.Notes) {devices : List String} {json : Bool} {cmd : Cmd}
    {w : World β η ω} (hrun : ¬ hasNote (Result.state (S.run devices json cmd w))) :
    ¬ S.BreaksElsewhere devices json cmd w := by
  rintro ⟨e, w', hw, he⟩
  have hE := Error.closed_not_brokenElsewhere
  have hout : OfStdout fun e => ¬ e.BrokenElsewhere := by
    rintro e ⟨_, ⟨⟩, -, h⟩
    exact h rfl
  have hfails := run_fails hE json h.devices devices fun fs hfs => runCmd_fails hE hfs json hout h.host cmd
  rw [hw] at hrun
  exact (hfails.errs w _ w' hw).elim (fun h => h he) hrun

/-- In every run in which neither a device nor the host answers with the kind that a closed
pipe gives, the exit code is right. -/
theorem exitsRight_of_unnoted [Noting β] [Noting η] (h : S.Notes) (devices : List String) (json : Bool)
    (cmd : Cmd) (w : World β η ω) (hrun : ¬ hasNote (Result.state (S.run devices json cmd w))) :
    S.ExitsRight devices json cmd w :=
  (S.exitsRight_iff_not_breaks devices json cmd w).mpr (h.not_breaks hrun)

end System

namespace Image

/-- An empty host, where every call does nothing. -/
def emptyHost : HostFs Unit Unit where
  isDir _ := pure false
  symlinkMetadata _ := throw ⟨.notFound, "No such file or directory (os error 2)"⟩
  createDirAll _ := pure ()
  removeFile _ := throw ⟨.notFound, "No such file or directory (os error 2)"⟩
  symlink _ _ _ := pure ()
  rename _ _ := pure ()
  setFileMtime _ _ _ := pure ()
  create _ := pure ()
  writeAll _ _ := pure ()
  seek _ _ := pure ()
  setLen _ _ := pure ()
  setPermissions _ _ := pure ()
  syncAll _ := pure ()
  manifestLine _ := pure ()
  manifestNewline := pure ()

def nullStream {ω : Type} : Stdout ω := ⟨fun _ => pure (), pure ()⟩

/-- A system with one device, whose path is any. -/
def oneDevice (B : Backing β) : System β Unit Unit Unit where
  platform := ⟨true⟩
  crates := crates
  serde := ⟨fun _ => [], fun _ => []⟩
  unicode := ⟨fun c => [c], fun _ => false, fun _ => false⟩
  globSet globs := .ok fun t => globs.any fun g => g t
  opener _ s := (.ok B, s)
  host := emptyHost
  stdout := nullStream
  stderr := nullStream

def nowhere (dev : β) : World β Unit Unit := ⟨.empty dev, (), ()⟩

/-- A helper that has gone away: writing a request to it fails. -/
def goneHelper : Backing Unit where
  readAt _ _ s := (.error ⟨.brokenPipe, "The pipe is being closed. (os error 232)"⟩, s)
  fits h := by cases h
  patience _ := 0
  steady := impatient
  interrupted h hi := by
    cases h
    cases hi

end Image

open Image in
/-- Nothing can be read, and no command says so: each exits with 0. -/
theorem System.gone_helper_exits_zero : ¬ ∃ json cmd,
    (oneDevice goneHelper).ExitsRight ["disk"] json cmd (nowhere ()) := by
  rintro ⟨json, cmd, h⟩
  have hrun : (oneDevice goneHelper).run ["disk"] json cmd (nowhere ()) =
      .error (.failed (.context "disk: reading superblock"
        (.io ⟨.brokenPipe, "The pipe is being closed. (os error 232)", .device⟩))) (nowhere ()) := rfl
  have hzero : ((oneDevice goneHelper).main ["disk"] json cmd (nowhere ())).1 = 0 := by
    rw [System.main, hrun]
    rfl
  refine (h.failed hrun ?_).1 hzero
  rintro ⟨_, ⟨⟩, h⟩
  exact absurd h (by decide)

namespace Image

/-- How many requests a helper still answers, and whether it has been asked for more. -/
structure Leaving where
  left : Nat
  gone : Bool

instance : Noting Leaving := ⟨fun s => s.gone = true⟩

instance : Noting Unit := .never

/-- A helper that goes away after a number of requests. Its disk has nothing on it. -/
def leavingHelper : Backing Leaving where
  readAt _ _ s :=
    if 0 < s.left then (.ok [], ⟨s.left - 1, s.gone⟩)
    else (.error ⟨.brokenPipe, "The pipe is being closed. (os error 232)"⟩, ⟨0, true⟩)
  fits h := by
    split_ifs at h <;> cases h
    exact Nat.zero_le _
  patience _ := 0
  steady _ _ _ := Nat.le_refl 0
  interrupted h hi := by
    split_ifs at h <;> cases h
    cases hi

theorem leavingHelper_notes : (oneDevice leavingHelper).Notes where
  devices := by
    rintro path s _ _ ⟨⟩
    refine ⟨id, by simp, fun B hB => ?_⟩
    cases hB
    intro off len t r t' ht
    by_cases hleft : 0 < t.left
    · simp only [leavingHelper, if_pos hleft] at ht
      cases ht
      exact ⟨id, by simp⟩
    · simp only [leavingHelper, if_neg hleft] at ht
      cases ht
      exact ⟨fun _ => rfl, fun _ _ => .inr rfl⟩
  host := by
    refine ⟨fun h => ⟨.of_false, fun s e s' he => .inl ?_⟩, fun _ => ⟨.of_false, fun _ _ _ h => by cases h⟩⟩
    cases h <;> cases he <;> rintro ⟨_, ⟨⟩, hkind, -⟩ <;> exact absurd hkind (by decide)

end Image

open Image in
/-- One request is answered, and `info` asks no more: the device ends before its superblock. -/
theorem System.exitsRight_of_unnoted_leaving :
    (oneDevice leavingHelper).ExitsRight ["disk"] false .info (nowhere ⟨1, false⟩) := by
  refine System.exitsRight_of_unnoted leavingHelper_notes ["disk"] false .info (nowhere ⟨1, false⟩) ?_
  rintro (h | h)
  · exact Bool.false_ne_true h
  · exact h

end BtrfsPeek
