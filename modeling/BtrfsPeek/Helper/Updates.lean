import BtrfsPeek.Fs.Image
import BtrfsPeek.Helper.Callbacks
import BtrfsPeek.Helper.Install

/-!
# Updates from one build to the next

`check_for_update`, from `helper/windows/updater.rs`, in every run of the service: any
number of checks, one at a time, whatever they are served, with restarts between them and
kills anywhere. `plan` is what a check does before it touches a file; the file operations
are those of `Helper.Install`, each of which may fail. `updates_move_forward` says that
builds follow each other only to newer signed versions.
-/

namespace BtrfsPeek.Helper.Updates

open Machine Install Effect

/-! ## Checks -/

section plan

variable (X : Crates) (M : Minisign)

/-- The bytes to install and the version they are signed as, with the signature, if a check
of the build `running` gets as far as that; what it returns, if it does not. -/
def plan (running : Version) (installed : Option Version) (signature exe : Fetching) :
    Except (Except IoError Update) (Bytes × Version × String) :=
  match installed with
  | some v => .error (.ok (.installed v))
  | none =>
    let announcement := do
      let sig ← fetch (RELEASES ++ ASSET ++ ".minisig") 120 MAX_SIG signature
      let sig ← signatureText sig
      return (sig, ← announced X M sig)
    match announcement with
    | .error e => .error (.error e)
    | .ok (sig, v) =>
      if compare v running ≠ .gt then .error (.ok (.upToDate running))
      else
        let download := do
          let exe ← fetch (RELEASES ++ ASSET) 900 MAX_EXE exe
          return (exe, ← verifyUpdate X M releaseKey exe sig running, sig)
        match download with
        | .error e => .error (.error e)
        | .ok x => .ok x

/-- A check is its plan, and the installation if there is something to install. -/
theorem checkForUpdate_eq_plan (o : Checking) : checkForUpdate X M o =
    match plan X M .running o.installed o.signature o.exe with
    | .error r => r
    | .ok (_, v, _) => (o.install.mapError (OsError.at · .device)).map fun _ => .installed v := by
  obtain ⟨installed, signature, exe, install⟩ := o
  cases installed with
  | some v => rfl
  | none =>
    unfold checkForUpdate plan
    dsimp only
    cases fetch (RELEASES ++ ASSET ++ ".minisig") 120 MAX_SIG signature with
    | error e => rfl
    | ok b =>
      cases hsig : signatureText b with
      | error e => simp only [bind, Except.bind, hsig]
      | ok sig =>
        cases hv : announced X M sig with
        | error e => simp only [bind, Except.bind, hsig, hv]
        | ok v =>
          simp only [bind, Except.bind, hsig, hv, pure, Except.pure]
          split_ifs
          · rfl
          cases fetch (RELEASES ++ ASSET) 900 MAX_EXE exe with
          | error e => rfl
          | ok exe =>
            dsimp only
            cases verifyUpdate X M releaseKey exe sig .running with
            | error e => rfl
            | ok v => cases install <;> rfl

/-- A check of the build `running` accepts the bytes that it was served, under the
signature that it was served, as a build of `v`. -/
structure Accepts (running : Version) (signature exe : Fetching) (b : Bytes) (sig : String)
    (v : Version) : Prop where
  signature : fetch (RELEASES ++ ASSET ++ ".minisig") 120 MAX_SIG signature >>= signatureText = .ok sig
  exe : fetch (RELEASES ++ ASSET) 900 MAX_EXE exe = .ok b
  verified : verifyUpdate X M releaseKey b sig running = .ok v

/-- What is to be installed is accepted, for the build that runs. -/
theorem accepts_of_plan {running v : Version} {installed : Option Version} {signature exe : Fetching}
    {b : Bytes} {sig : String} (h : plan X M running installed signature exe = .ok (b, v, sig)) :
    installed = none ∧ Accepts X M running signature exe b sig v := by
  cases installed with
  | some v => exact absurd h (by simp [plan])
  | none =>
    refine ⟨rfl, ?_⟩
    unfold plan at h
    dsimp only at h
    split at h
    · exact absurd h (by simp)
    · next sig' v' hsig =>
      obtain ⟨raw, hraw, hsig⟩ := except_bind_ok.mp hsig
      obtain ⟨text, htext, hsig⟩ := except_bind_ok.mp hsig
      obtain ⟨_, -, hsig⟩ := except_bind_ok.mp hsig
      cases hsig
      split_ifs at h
      split at h
      · exact absurd h (by simp)
      · next x hx =>
        obtain rfl := Except.ok.inj h
        obtain ⟨exe', hexe, hx⟩ := except_bind_ok.mp hx
        obtain ⟨v'', hv, hx⟩ := except_bind_ok.mp hx
        cases hx
        exact ⟨except_bind_ok.mpr ⟨raw, hraw, htext⟩, hexe, hv⟩

/-- What `verify_update` accepts is signed, and newer. -/
theorem of_verifyUpdate {key : String} {b : Bytes} {sig : String} {running v : Version}
    (h : verifyUpdate X M key b sig running = .ok v) :
    (∃ k s, M.fromBase64 key = .ok k ∧ M.decode sig = .ok s ∧ M.verify k b s = .ok () ∧
      commentVersion (M.trustedComment s) = some v) ∧ compare v running = .gt := by
  have hmap {α : Type} {x : Except String α} {f : String → IoError} {a : α}
      (hx : x.mapError f = .ok a) : x = .ok a := by
    cases x with
    | error e => exact absurd hx (by simp [Except.mapError])
    | ok b => exact congrArg _ (Except.ok.inj hx)
  obtain ⟨k, hk, h⟩ := except_bind_ok.mp h
  obtain ⟨s, hs, h⟩ := except_bind_ok.mp h
  obtain ⟨_, hverify, h⟩ := except_bind_ok.mp h
  obtain ⟨v', hv, h⟩ := except_bind_ok.mp h
  split_ifs at h with hnew
  obtain rfl := Except.ok.inj h
  refine ⟨⟨k, s, hmap hk, hmap hs, hmap hverify, ?_⟩, not_not.mp hnew⟩
  unfold signedVersion at hv
  split at hv
  · next v'' hcomment => rw [hcomment, Except.ok.inj hv]
  · exact absurd hv (by simp)

end plan

theorem Version.compare_gt_trans {u v w : Version} (h : compare u v = .gt) (h' : compare v w = .gt) :
    compare u w = .gt := by
  have hgt (v w : Version) : compare v w = .gt ↔ w.major.1 < v.major.1 ∨ v.major.1 = w.major.1 ∧
      (w.minor.1 < v.minor.1 ∨ v.minor.1 = w.minor.1 ∧ w.patch.1 < v.patch.1) := by
    show (compare v.major.1 w.major.1).then
      ((compare v.minor.1 w.minor.1).then (compare v.patch.1 w.patch.1)) = .gt ↔ _
    simp only [Ordering.then_eq_gt, Nat.compare_eq_gt, Nat.compare_eq_eq]
  rw [hgt] at h h' ⊢
  omega

/-! ## Runs -/

/-- How far the latest check of this process is. -/
inductive Call
  | never
  /-- It installs the build of `v`; what was at EXE when it began, and the error of a rename
  that has failed, for when the old exe is back. -/
  | installing (v : Version) (before : Option Bytes) (failure : Option IoError)
  | returned (before : Option Bytes) (r : Except IoError Update)

structure State where
  disk : Install.State
  /-- The version of the build that runs. -/
  running : Version
  /-- `INSTALLED`. -/
  installed : Option Version
  call : Call

inductive Event
  | start
  /-- A check, with what answers its fetches. -/
  | check (signature exe : Fetching)
  /-- The next file operation succeeds, or fails. -/
  | ok
  | fail (e : OsError)
  | wrote (n : Nat)
  /-- The process ends, whether it restarts or is killed. -/
  | kill

namespace State

def init (f : Folder) (v : Version) : State := ⟨⟨f, none⟩, v, none, .never⟩

variable (s : State)

def act (a : Act) : Option Install.State := Install.act (fun _ => true) s.disk a

/-- The operation that comes next, if the service runs. -/
def next : Option At := s.disk.service.map Service.next

def removesOld : Bool :=
  match s.next with
  | some (.removeOld _) => true
  | _ => false

/-- After an operation that succeeded, which was the last of the swap or put the exe back. -/
def succeeded : State :=
  match s.call, s.next with
  | .installing v before none, some .idle =>
    { s with installed := some v, call := .returned before (.ok (.installed v)) }
  | .installing _ before (some e), some .idle => { s with call := .returned before (.error e) }
  | _, _ => s

/-- After one that failed. What is returned is the first error. -/
def failed (e : OsError) : State :=
  match s.call, s.next with
  | .installing _ before failure, some .idle =>
    { s with call := .returned before (.error (failure.getD (e.at .device))) }
  | .installing v before failure, _ =>
    { s with call := .installing v before (some (failure.getD (e.at .device))) }
  | _, _ => s

end State

section run

variable (X : Crates) (M : Minisign) (versionOf : Bytes → Version)

/-- What an event makes of the service. -/
def step (s : State) : Event → Option State
  | .start => s.disk.folder.exe.bind fun exe =>
    (s.act .start).map fun disk => ⟨disk, versionOf exe, none, .never⟩
  | .check signature exe =>
    if s.next ≠ some .idle then none
    else
      match plan X M s.running s.installed signature exe with
      | .error r => some { s with call := .returned s.disk.folder.exe r }
      | .ok (exe, v, _) => (s.act (.check exe)).map fun disk =>
        { s with disk := disk, call := .installing v s.disk.folder.exe none }
  | .ok => (s.act .ok).map fun disk => { s with disk := disk : State }.succeeded
  | .fail e =>
    -- One that is not there need not be removed.
    if e.kind = .notFound ∧ s.removesOld then none
    else (s.act .fail).map fun disk => { s with disk := disk : State }.failed e
  | .wrote n => (s.act (.wrote n)).map fun disk => { s with disk := disk }
  | .kill => (s.act .kill).map fun disk => ⟨disk, s.running, none, .never⟩

end run

/-! ## What a run has done -/

/-- The build that an operation puts at EXE. -/
def placed : State × Event → Option Bytes
  | (s, .ok) =>
    match s.next with
    | some (.putInPlace exe) => some exe
    | _ => none
  | _ => none

/-- The builds that have been at EXE, the latest first. -/
def builds (b₀ : Bytes) (tr : List (State × Event)) : List Bytes := tr.filterMap placed ++ [b₀]

def Event.boundary : Event → Bool
  | .start | .kill => true
  | _ => false

/-- The events since the process started. -/
def thisRun (tr : List (State × Event)) : List (State × Event) := tr.takeWhile fun x => !x.2.boundary

/-- A check accepted the build, under the version that ran then. -/
def Verified (X : Crates) (M : Minisign) (tr : List (State × Event)) (b : Bytes) : Prop :=
  ∃ s signature exe sig v, (s, .check signature exe) ∈ tr ∧
    Accepts X M s.running signature exe b sig v

/-- What is signed as a version is a build of it. -/
def Signed (M : Minisign) (versionOf : Bytes → Version) : Prop :=
  ∀ k s b v, M.fromBase64 releaseKey = .ok k → M.verify k b s = .ok () →
    commentVersion (M.trustedComment s) = some v → versionOf b = v

/-- The rename that puts the exe back fails. -/
def LosesExe : State × Event → Prop
  | (s, .fail _) => s.next = some .putBack
  | _ => False

/-! ## What is kept -/

/-- Nothing is being installed, and what was returned is so. -/
def Call.Settled (exe : Option Bytes) : Call → Prop
  | .never => True
  | .installing .. => False
  | .returned before r => (∀ v, r ≠ .ok (.installed v)) → exe = before

/-- What there is when an operation comes next, where `top` was put at EXE last. -/
def Phase (good : Bytes → Version → Prop) (top : Bytes) (f : Folder) (installed : Option Version)
    (call : Call) : At → Prop
  | .cleanOld | .cleanNew => f.exe = some top ∧ installed = none ∧ call = .never
  | .idle => f.exe = some top ∧ call.Settled f.exe
  | .create exe | .write exe _ => f.exe = some top ∧ installed = none ∧
      ∃ v, good exe v ∧ call = .installing v (some top) none
  | .sync exe | .removeOld exe | .putAside exe => f.exe = some top ∧ f.new = some exe ∧
      installed = none ∧ ∃ v, good exe v ∧ call = .installing v (some top) none
  | .putInPlace exe => f.exe = none ∧ f.old = some top ∧ f.new = some exe ∧ installed = none ∧
      ∃ v, good exe v ∧ call = .installing v (some top) none
  | .putBack => f.exe = none ∧ f.old = some top ∧ installed = none ∧
      ∃ v e, call = .installing v (some top) (some e)

/-- At EXE there is nothing but what was put there last. -/
theorem Phase.exe {good : Bytes → Version → Prop} {top : Bytes} {f : Folder} {installed : Option Version}
    {call : Call} {next : At} (h : Phase good top f installed call next) {b : Bytes} (hb : f.exe = some b) :
    b = top := by
  have htop : f.exe = some top ∨ f.exe = none := by
    cases next <;> first | exact .inl h.1 | exact .inr h.1
  rcases htop with htop | hnone
  · exact Option.some.inj (hb.symm.trans htop)
  · rw [hnone] at hb
    exact absurd hb (by simp)

/-- A service that runs, where this run has put `fresh` at EXE. -/
structure Live (versionOf : Bytes → Version) (good : Bytes → Version → Prop) (top : Bytes)
    (fresh : List Bytes) (s : State) (sv : Service) : Prop where
  service : s.disk.service = some sv
  latch : sv.installed = s.installed.isSome
  phase : Phase good top s.disk.folder s.installed s.call sv.next
  before : s.installed = none → fresh = [] ∧ s.running = versionOf top
  after : ∀ v, s.installed = some v → fresh = [top] ∧ versionOf top = v

section steps

variable {versionOf : Bytes → Version} {good : Bytes → Version → Prop} {top : Bytes} {fresh : List Bytes}
  {s : State} {sv : Service} {disk : Install.State}

/-- An operation that succeeds, and puts nothing at EXE that was not there. -/
theorem Live.succeed (h : Live versionOf good top fresh s sv) (hstep : s.act .ok = some disk)
    (hnot : ∀ exe, sv.next ≠ .putInPlace exe) :
    ∃ sv', Live versionOf good top fresh { s with disk := disk : State }.succeeded sv' := by
  obtain ⟨⟨f, service⟩, running, installed, call⟩ := s
  obtain ⟨hservice, hlatch, hphase, hbefore, hafter⟩ := h
  obtain rfl : service = some sv := hservice
  obtain ⟨next, inst, image⟩ := sv
  cases next with
  | cleanOld =>
    obtain rfl := Option.some.inj hstep
    obtain ⟨hexe, hnone, rfl⟩ := hphase
    exact ⟨_, rfl, hlatch, ⟨hexe, hnone, rfl⟩, hbefore, hafter⟩
  | cleanNew =>
    obtain rfl := Option.some.inj hstep
    obtain ⟨hexe, hnone, rfl⟩ := hphase
    exact ⟨_, rfl, hlatch, ⟨hexe, trivial⟩, hbefore, hafter⟩
  | idle => exact absurd hstep (by simp [State.act, act, Service.succeed])
  | create exe =>
    obtain rfl := Option.some.inj hstep
    obtain ⟨hexe, hnone, v, hgood, rfl⟩ := hphase
    exact ⟨_, rfl, hlatch, ⟨hexe, hnone, v, hgood, rfl⟩, hbefore, hafter⟩
  | write exe done =>
    obtain rfl := Option.some.inj hstep
    obtain ⟨hexe, hnone, v, hgood, rfl⟩ := hphase
    exact ⟨_, rfl, hlatch, ⟨hexe, rfl, hnone, v, hgood, rfl⟩, hbefore, hafter⟩
  | sync exe =>
    obtain rfl := Option.some.inj hstep
    obtain ⟨hexe, hnew, hnone, v, hgood, rfl⟩ := hphase
    exact ⟨_, rfl, hlatch, ⟨hexe, hnew, hnone, v, hgood, rfl⟩, hbefore, hafter⟩
  | removeOld exe =>
    obtain ⟨hexe, hnew, hnone, v, hgood, rfl⟩ := hphase
    by_cases hi : image = .old
    · exact absurd hstep (by simp [State.act, act, Service.succeed, hi])
    · simp only [State.act, act, Service.succeed, if_neg hi, Option.bind_some, Option.map_some,
        Option.some.injEq] at hstep
      subst hstep
      exact ⟨_, rfl, hlatch, ⟨hexe, hnew, hnone, v, hgood, rfl⟩, hbefore, hafter⟩
  | putAside exe =>
    obtain ⟨(hexe : f.exe = some top), hnew, hnone, v, hgood, rfl⟩ := hphase
    simp only [State.act, act, Service.succeed, hexe, Option.bind_some, Option.map_some,
      Option.some.injEq] at hstep
    subst hstep
    exact ⟨_, rfl, hlatch, ⟨rfl, rfl, hnew, hnone, v, hgood, rfl⟩, hbefore, hafter⟩
  | putInPlace exe => exact absurd rfl (hnot exe)
  | putBack =>
    obtain ⟨-, (hold : f.old = some top), hnone, v, e, rfl⟩ := hphase
    simp only [State.act, act, Service.succeed, hold, Option.bind_some, Option.map_some,
      Option.some.injEq] at hstep
    subst hstep
    exact ⟨_, rfl, hlatch, ⟨rfl, fun _ => rfl⟩, hbefore, hafter⟩

/-- The rename that puts the new build at EXE. -/
theorem Live.place (h : Live versionOf good top fresh s sv) {exe : Bytes}
    (hnext : sv.next = .putInPlace exe) (hstep : s.act .ok = some disk) :
    ∃ v, good exe v ∧ s.installed = none ∧ ∀ good', versionOf exe = v → 
      ∃ sv', Live versionOf good' exe (exe :: fresh) { s with disk := disk : State }.succeeded sv' := by
  obtain ⟨⟨f, service⟩, running, installed, call⟩ := s
  obtain ⟨hservice, hlatch, hphase, hbefore, hafter⟩ := h
  obtain rfl : service = some sv := hservice
  obtain ⟨next, inst, image⟩ := sv
  obtain rfl : next = .putInPlace exe := hnext
  obtain ⟨-, -, (hnew : f.new = some exe), hnone, v, hgood, rfl⟩ := hphase
  simp only [State.act, act, Service.succeed, hnew, Option.bind_some, Option.map_some,
    Option.some.injEq] at hstep
  subst hstep
  refine ⟨v, hgood, hnone, fun good' hv => ⟨_, rfl, rfl, ⟨rfl, fun hne => absurd rfl (hne v)⟩, fun h => (by cases h), ?_⟩⟩
  intro v' hv'
  obtain rfl := Option.some.inj hv'
  rw [(hbefore hnone).1]
  exact ⟨rfl, hv⟩

/-- An operation that fails, but the one that puts the exe back. -/
theorem Live.fail (h : Live versionOf good top fresh s sv) (hstep : s.act .fail = some disk)
    (hback : sv.next ≠ .putBack) (e : OsError) :
    ∃ sv', Live versionOf good top fresh ({ s with disk := disk : State }.failed e) sv' := by
  obtain ⟨⟨f, service⟩, running, installed, call⟩ := s
  obtain ⟨hservice, hlatch, hphase, hbefore, hafter⟩ := h
  obtain rfl : service = some sv := hservice
  obtain ⟨next, inst, image⟩ := sv
  cases next with
  | cleanOld =>
    obtain rfl := Option.some.inj hstep
    obtain ⟨hexe, hnone, rfl⟩ := hphase
    exact ⟨_, rfl, hlatch, ⟨hexe, hnone, rfl⟩, hbefore, hafter⟩
  | cleanNew =>
    obtain rfl := Option.some.inj hstep
    obtain ⟨hexe, hnone, rfl⟩ := hphase
    exact ⟨_, rfl, hlatch, ⟨hexe, trivial⟩, hbefore, hafter⟩
  | idle => exact absurd hstep (by simp [State.act, act, Service.failed])
  | create exe =>
    obtain rfl := Option.some.inj hstep
    obtain ⟨hexe, hnone, v, hgood, rfl⟩ := hphase
    exact ⟨_, rfl, hlatch, ⟨hexe, fun _ => hexe⟩, hbefore, hafter⟩
  | write exe done =>
    obtain rfl := Option.some.inj hstep
    obtain ⟨hexe, hnone, v, hgood, rfl⟩ := hphase
    exact ⟨_, rfl, hlatch, ⟨hexe, fun _ => hexe⟩, hbefore, hafter⟩
  | sync exe =>
    obtain rfl := Option.some.inj hstep
    obtain ⟨hexe, -, hnone, v, hgood, rfl⟩ := hphase
    exact ⟨_, rfl, hlatch, ⟨hexe, fun _ => hexe⟩, hbefore, hafter⟩
  | removeOld exe =>
    obtain rfl := Option.some.inj hstep
    obtain ⟨hexe, -, hnone, v, hgood, rfl⟩ := hphase
    exact ⟨_, rfl, hlatch, ⟨hexe, fun _ => hexe⟩, hbefore, hafter⟩
  | putAside exe =>
    obtain rfl := Option.some.inj hstep
    obtain ⟨hexe, -, hnone, v, hgood, rfl⟩ := hphase
    exact ⟨_, rfl, hlatch, ⟨hexe, fun _ => hexe⟩, hbefore, hafter⟩
  | putInPlace exe =>
    obtain rfl := Option.some.inj hstep
    obtain ⟨hexe, hold, -, hnone, v, hgood, rfl⟩ := hphase
    exact ⟨_, rfl, hlatch, ⟨hexe, hold, hnone, v, _, rfl⟩, hbefore, hafter⟩
  | putBack => exact absurd rfl hback

/-- More of the new build's bytes are written. -/
theorem Live.wrote (h : Live versionOf good top fresh s sv) {n : Nat} (hstep : s.act (.wrote n) = some disk) :
    ∃ sv', Live versionOf good top fresh { s with disk := disk } sv' := by
  obtain ⟨⟨f, service⟩, running, installed, call⟩ := s
  obtain ⟨hservice, hlatch, hphase, hbefore, hafter⟩ := h
  obtain rfl : service = some sv := hservice
  obtain ⟨next, inst, image⟩ := sv
  cases next with
  | write exe done =>
    simp only [State.act, act, Option.bind_some] at hstep
    split_ifs at hstep
    obtain rfl := Option.some.inj hstep
    exact ⟨_, rfl, hlatch, hphase, hbefore, hafter⟩
  | _ => exact absurd hstep (by simp [State.act, act])

/-- A check that found something to install. -/
theorem Live.check (h : Live versionOf good top fresh s sv) (hidle : sv.next = .idle)
    (hnone : s.installed = none) {exe : Bytes} {v : Version} (hgood : good exe v)
    (hstep : s.act (.check exe) = some disk) : ∃ sv', Live versionOf good top fresh
      { s with disk := disk, call := .installing v s.disk.folder.exe none } sv' := by
  obtain ⟨⟨f, service⟩, running, installed, call⟩ := s
  obtain ⟨hservice, hlatch, hphase, hbefore, hafter⟩ := h
  obtain rfl : service = some sv := hservice
  obtain ⟨next, inst, image⟩ := sv
  obtain rfl : next = .idle := hidle
  simp only [State.act, act, Option.bind_some] at hstep
  split_ifs at hstep
  obtain rfl := Option.some.inj hstep
  have hexe : f.exe = some top := hphase.1
  exact ⟨_, rfl, hlatch, ⟨hexe, hnone, v, hgood, by rw [hexe]⟩, hbefore, hafter⟩

theorem Live.mono {good' : Bytes → Version → Prop} (h : Live versionOf good top fresh s sv)
    (hgood : ∀ b v, good b v → good' b v) : Live versionOf good' top fresh s sv := by
  refine ⟨h.service, h.latch, ?_, h.before, h.after⟩
  have hphase := h.phase
  cases hnext : sv.next <;> rw [hnext] at hphase
  case cleanOld | cleanNew | idle | putBack => exact hphase
  case create | write =>
    obtain ⟨hexe, hnone, v, hg, hcall⟩ := hphase
    exact ⟨hexe, hnone, v, hgood _ _ hg, hcall⟩
  case sync | removeOld | putAside =>
    obtain ⟨hexe, hnew, hnone, v, hg, hcall⟩ := hphase
    exact ⟨hexe, hnew, hnone, v, hgood _ _ hg, hcall⟩
  case putInPlace =>
    obtain ⟨hexe, hold, hnew, hnone, v, hg, hcall⟩ := hphase
    exact ⟨hexe, hold, hnew, hnone, v, hgood _ _ hg, hcall⟩

end steps

/-! ## Runs from a folder with an exe -/

section runs

variable {X : Crates} {M : Minisign} {versionOf : Bytes → Version} {b₀ : Bytes}
  {tr : List (State × Event)} {s s' : State} {e : Event}

/-- The build that was put at EXE last. -/
def latest (b₀ : Bytes) (tr : List (State × Event)) : Bytes := (tr.filterMap placed).headD b₀

/-- The builds that this run has put there. -/
def fresh (tr : List (State × Event)) : List Bytes := (thisRun tr).filterMap placed

/-- A build that may be installed. -/
def Good (X : Crates) (M : Minisign) (versionOf : Bytes → Version) (tr : List (State × Event))
    (running : Version) (b : Bytes) (v : Version) : Prop :=
  versionOf b = v ∧ compare v running = .gt ∧ Verified X M tr b

/-- What is kept by every step of a run that does not lose the exe. -/
structure Inv (X : Crates) (M : Minisign) (versionOf : Bytes → Version) (b₀ : Bytes)
    (tr : List (State × Event)) (s : State) : Prop where
  sorted : (builds b₀ tr).Pairwise fun b c => compare (versionOf b) (versionOf c) = .gt
  verified : ∀ b ∈ tr.filterMap placed, Verified X M tr b
  live : ∀ sv, s.disk.service = some sv →
    Live versionOf (Good X M versionOf tr s.running) (latest b₀ tr) (fresh tr) s sv
  stopped : s.disk.service = none → s.installed = none ∧ s.call = .never ∧ fresh tr = [] ∧
    ∀ b, s.disk.folder.exe = some b → b = latest b₀ tr

theorem builds_eq (b₀ : Bytes) (tr : List (State × Event)) :
    ∃ older, builds b₀ tr = latest b₀ tr :: older := by
  unfold builds latest
  cases tr.filterMap placed with
  | nil => exact ⟨[], rfl⟩
  | cons b bs => exact ⟨bs ++ [b₀], rfl⟩

theorem Verified.mono {b : Bytes} (h : Verified X M tr b) (x : State × Event) : Verified X M (x :: tr) b := by
  obtain ⟨s, signature, exe, sig, v, hmem, hv⟩ := h
  exact ⟨s, signature, exe, sig, v, List.mem_cons_of_mem _ hmem, hv⟩

theorem Good.mono {running v : Version} {b : Bytes} (h : Good X M versionOf tr running b v)
    (x : State × Event) : Good X M versionOf (x :: tr) running b v := ⟨h.1, h.2.1, h.2.2.mono x⟩

/-- An event that puts nothing at EXE. -/
theorem placed_cons (h : placed (s, e) = none) : ((s, e) :: tr).filterMap placed = tr.filterMap placed :=
  List.filterMap_cons_none h

theorem latest_cons (h : placed (s, e) = none) : latest b₀ ((s, e) :: tr) = latest b₀ tr := by
  rw [latest, placed_cons h, latest]

theorem fresh_cons (hb : e.boundary = false) (h : placed (s, e) = none) : fresh ((s, e) :: tr) = fresh tr := by
  rw [fresh, thisRun, List.takeWhile_cons_of_pos (by simp [hb]), List.filterMap_cons_none h]
  rfl

theorem fresh_boundary (hb : e.boundary = true) : fresh ((s, e) :: tr) = [] := by
  rw [fresh, thisRun, List.takeWhile_cons_of_neg (by simp [hb])]
  rfl

theorem Inv.history (h : Inv X M versionOf b₀ tr s) (hp : placed (s, e) = none) :
    (builds b₀ ((s, e) :: tr)).Pairwise (fun b c => compare (versionOf b) (versionOf c) = .gt) ∧
    ∀ b ∈ ((s, e) :: tr).filterMap placed, Verified X M ((s, e) :: tr) b := by
  rw [builds, placed_cons hp]
  exact ⟨h.sorted, fun b hb => (h.verified b hb).mono _⟩

/-- A service that runs. -/
theorem Inv.of_live (sv : Service)
    (hhistory : (builds b₀ tr).Pairwise (fun b c => compare (versionOf b) (versionOf c) = .gt) ∧
      ∀ b ∈ tr.filterMap placed, Verified X M tr b)
    (h : Live versionOf (Good X M versionOf tr s.running) (latest b₀ tr) (fresh tr) s sv) :
    Inv X M versionOf b₀ tr s := by
  refine ⟨hhistory.1, hhistory.2, fun sv' hsv => ?_, fun hnone => ?_⟩
  · obtain rfl := Option.some.inj (h.service.symm.trans hsv)
    exact h
  · rw [h.service] at hnone
    exact absurd hnone (by simp)

/-- An event of a running service that puts nothing at EXE. -/
theorem Inv.of_live_quiet (hinv : Inv X M versionOf b₀ tr s) (hb : e.boundary = false)
    (hp : placed (s, e) = none) (hrunning : s'.running = s.running)
    (h : ∃ sv, Live versionOf (Good X M versionOf ((s, e) :: tr) s.running) (latest b₀ tr) (fresh tr) s' sv) :
    Inv X M versionOf b₀ ((s, e) :: tr) s' := by
  obtain ⟨sv, h⟩ := h
  refine .of_live sv (hinv.history hp) ?_
  rw [latest_cons hp, fresh_cons hb hp, hrunning]
  exact h

@[simp] theorem succeeded_running (s : State) : s.succeeded.running = s.running := by
  unfold State.succeeded
  split <;> rfl

@[simp] theorem failed_running (s : State) (e : OsError) : (s.failed e).running = s.running := by
  unfold State.failed
  split <;> rfl

theorem State.next_eq {a : At} (h : s.next = some a) :
    ∃ sv, s.disk.service = some sv ∧ sv.next = a := Option.map_eq_some_iff.mp h

/-- Only a service that runs goes on. -/
theorem service_of_act {a : Act} (ha : a ≠ .start) {disk : Install.State} (h : s.act a = some disk) :
    ∃ sv, s.disk.service = some sv := by
  cases hs : s.disk.service with
  | some sv => exact ⟨sv, rfl⟩
  | none => cases a <;> simp [State.act, act, hs] at h ha

theorem inv_start (hinv : Inv X M versionOf b₀ tr s) (h : step X M versionOf s .start = some s') :
    Inv X M versionOf b₀ ((s, .start) :: tr) s' := by
  obtain ⟨exe, hexe, h⟩ := Option.bind_eq_some_iff.mp h
  obtain ⟨disk, hdisk, rfl⟩ := Option.map_eq_some_iff.mp h
  simp only [State.act, act] at hdisk
  split_ifs at hdisk with hc
  obtain rfl := Option.some.inj hdisk
  obtain ⟨-, -, -, htop⟩ := hinv.stopped hc.1
  have hlatest := htop exe hexe
  refine .of_live ⟨.cleanOld, false, .exe⟩ (hinv.history rfl) ?_
  rw [latest_cons rfl, fresh_boundary rfl]
  exact ⟨rfl, rfl, ⟨hexe.trans (congrArg some hlatest), rfl, rfl⟩,
    fun _ => ⟨rfl, congrArg versionOf hlatest⟩, fun _ h => by cases h⟩

theorem inv_check (hsigned : Signed M versionOf) {signature exe : Fetching}
    (hinv : Inv X M versionOf b₀ tr s) (h : step X M versionOf s (.check signature exe) = some s') :
    Inv X M versionOf b₀ ((s, .check signature exe) :: tr) s' := by
  simp only [step] at h
  split_ifs at h with hidle
  obtain ⟨sv, hsv, hnext⟩ := State.next_eq (not_not.mp hidle)
  have hlive := (hinv.live sv hsv).mono fun b v hgood => hgood.mono (s, .check signature exe)
  cases hplan : plan X M s.running s.installed signature exe with
  | error r =>
    rw [hplan] at h
    obtain rfl := Option.some.inj h
    refine hinv.of_live_quiet rfl rfl rfl ⟨sv, hlive.service, hlive.latch, ?_, hlive.before, hlive.after⟩
    have hphase := hlive.phase
    rw [hnext] at hphase ⊢
    exact ⟨hphase.1, fun _ => rfl⟩
  | ok x =>
    obtain ⟨b, v, sig⟩ := x
    rw [hplan] at h
    obtain ⟨disk, hdisk, rfl⟩ := Option.map_eq_some_iff.mp h
    obtain ⟨hnone, haccepts⟩ := accepts_of_plan X M hplan
    obtain ⟨⟨k, sg, hk, -, hv, hcomment⟩, hnew⟩ := of_verifyUpdate X M haccepts.verified
    refine hinv.of_live_quiet rfl rfl rfl (hlive.check hnext hnone ?_ hdisk)
    exact ⟨hsigned k sg b v hk hv hcomment, hnew, s, signature, exe, sig, v, List.mem_cons_self, haccepts⟩

theorem inv_ok (hinv : Inv X M versionOf b₀ tr s) (h : step X M versionOf s .ok = some s') :
    Inv X M versionOf b₀ ((s, .ok) :: tr) s' := by
  obtain ⟨disk, hdisk, rfl⟩ := Option.map_eq_some_iff.mp h
  obtain ⟨sv, hsv⟩ := service_of_act (by simp) hdisk
  have hlive := (hinv.live sv hsv).mono fun b v hgood => hgood.mono (s, .ok)
  by_cases hplace : ∃ exe, sv.next = .putInPlace exe
  · obtain ⟨exe, hnext⟩ := hplace
    have hplaced : placed (s, .ok) = some exe := by simp [placed, State.next, hsv, hnext]
    obtain ⟨v, ⟨hversion, hnew, hverified⟩, hnone, hplace⟩ := hlive.place hnext hdisk
    obtain ⟨sv', hlive'⟩ := hplace (Good X M versionOf ((s, .ok) :: tr) s.running) hversion
    have hmap : ((s, .ok) :: tr).filterMap placed = exe :: tr.filterMap placed :=
      List.filterMap_cons_some hplaced
    refine .of_live sv' ⟨?_, ?_⟩ ?_
    · rw [builds, hmap, List.cons_append]
      refine List.pairwise_cons.mpr ⟨fun c hc => ?_, hinv.sorted⟩
      -- newer than the build that runs, which is the latest one
      obtain ⟨older, hbuilds⟩ := builds_eq b₀ tr
      have hc : c ∈ builds b₀ tr := hc
      have hsorted := hinv.sorted
      rw [hbuilds] at hc hsorted
      rw [hversion]
      rw [(hlive.before hnone).2] at hnew
      rcases List.mem_cons.mp hc with rfl | hc
      · exact hnew
      · exact Version.compare_gt_trans hnew ((List.pairwise_cons.mp hsorted).1 c hc)
    · intro b hb
      rw [hmap] at hb
      rcases List.mem_cons.mp hb with rfl | hb
      · exact hverified
      · exact (hinv.verified b hb).mono _
    · have hlatest : latest b₀ ((s, .ok) :: tr) = exe := by
        rw [latest, hmap]
        rfl
      have hfresh : fresh ((s, .ok) :: tr) = exe :: fresh tr := by
        rw [fresh, thisRun, List.takeWhile_cons_of_pos rfl, List.filterMap_cons_some hplaced]
        rfl
      rw [hlatest, hfresh, succeeded_running]
      exact hlive'
  · have hnot : ∀ exe, sv.next ≠ .putInPlace exe := fun exe hnext => hplace ⟨exe, hnext⟩
    have hquiet : placed (s, .ok) = none := by
      have hnext : s.next = some sv.next := congrArg (Option.map _) hsv
      unfold placed
      dsimp only
      split
      · next exe hplace => exact absurd (Option.some.inj (hnext.symm.trans hplace)) (hnot exe)
      · rfl
    exact hinv.of_live_quiet rfl hquiet (succeeded_running _) (hlive.succeed hdisk hnot)

theorem inv_fail {e : OsError} (hinv : Inv X M versionOf b₀ tr s) (hback : ¬ LosesExe (s, .fail e))
    (h : step X M versionOf s (.fail e) = some s') : Inv X M versionOf b₀ ((s, .fail e) :: tr) s' := by
  simp only [step] at h
  split_ifs at h
  obtain ⟨disk, hdisk, rfl⟩ := Option.map_eq_some_iff.mp h
  obtain ⟨sv, hsv⟩ := service_of_act (by simp) hdisk
  have hlive := (hinv.live sv hsv).mono fun b v hgood => hgood.mono (s, .fail e)
  have hnext : sv.next ≠ .putBack := by
    intro hnext
    exact hback (by simp [LosesExe, State.next, hsv, hnext])
  exact hinv.of_live_quiet rfl rfl (failed_running _ _) (hlive.fail hdisk hnext e)

theorem inv_wrote {n : Nat} (hinv : Inv X M versionOf b₀ tr s)
    (h : step X M versionOf s (.wrote n) = some s') : Inv X M versionOf b₀ ((s, .wrote n) :: tr) s' := by
  obtain ⟨disk, hdisk, rfl⟩ := Option.map_eq_some_iff.mp h
  obtain ⟨sv, hsv⟩ := service_of_act (by simp) hdisk
  have hlive := (hinv.live sv hsv).mono fun b v hgood => hgood.mono (s, .wrote n)
  exact hinv.of_live_quiet rfl rfl rfl (hlive.wrote hdisk)

theorem inv_kill (hinv : Inv X M versionOf b₀ tr s) (h : step X M versionOf s .kill = some s') :
    Inv X M versionOf b₀ ((s, .kill) :: tr) s' := by
  obtain ⟨disk, hdisk, rfl⟩ := Option.map_eq_some_iff.mp h
  obtain ⟨sv, hsv⟩ := service_of_act (by simp) hdisk
  obtain ⟨hsorted, hverified⟩ := hinv.history (e := .kill) rfl
  obtain ⟨_, -, rfl⟩ := Option.map_eq_some_iff.mp hdisk
  refine ⟨hsorted, hverified, nofun, fun _ => ⟨rfl, rfl, fresh_boundary rfl, fun b hb => ?_⟩⟩
  rw [latest_cons rfl]
  exact (hinv.live sv hsv).phase.exe hb

theorem inv_step (hsigned : Signed M versionOf) (hinv : Inv X M versionOf b₀ tr s)
    (hback : ¬ LosesExe (s, e)) (h : step X M versionOf s e = some s') :
    Inv X M versionOf b₀ ((s, e) :: tr) s' := by
  cases e with
  | start => exact inv_start hinv h
  | check signature exe => exact inv_check hsigned hinv h
  | ok => exact inv_ok hinv h
  | fail e => exact inv_fail hinv hback h
  | wrote n => exact inv_wrote hinv h
  | kill => exact inv_kill hinv h

theorem inv_run (hsigned : Signed M versionOf) {f : Folder} (hf : f.exe = some b₀)
    (h : Run (step X M versionOf) (.init f (versionOf b₀)) tr s) (hback : ∀ x ∈ tr, ¬ LosesExe x) :
    Inv X M versionOf b₀ tr s := by
  induction h with
  | start =>
    refine ⟨List.pairwise_singleton _ _, nofun, nofun, fun _ => ⟨rfl, rfl, rfl, fun b hb => ?_⟩⟩
    exact Option.some.inj (hb.symm.trans hf)
  | next _ hstep ih =>
    obtain ⟨hlast, hback⟩ := List.forall_mem_cons.mp hback
    exact inv_step hsigned (ih hback) hlast hstep

/-- The service only moves forward. -/
structure Forward (X : Crates) (M : Minisign) (versionOf : Bytes → Version) (b₀ : Bytes)
    (tr : List (State × Event)) (s : State) : Prop where
  /-- At EXE is the build that was put there last: the initial one, or one that a check
  accepted under the version that ran. -/
  exe : ∀ b, s.disk.folder.exe = some b →
    (builds b₀ tr).head? = some b ∧ (b = b₀ ∨ Verified X M tr b)
  /-- Each build is newer than the ones before. -/
  increasing : (builds b₀ tr).Pairwise fun b c => compare (versionOf b) (versionOf c) = .gt
  once : (fresh tr).length ≤ 1
  latch : ∀ v, s.installed = some v ↔
    ∃ b, fresh tr = [b] ∧ s.disk.folder.exe = some b ∧ versionOf b = v
  /-- A check that installed nothing has changed nothing. -/
  unchanged : ∀ before r, s.call = .returned before r → (∀ v, r ≠ .ok (.installed v)) →
    s.disk.folder.exe = before

theorem Phase.settled {good : Bytes → Version → Prop} {top : Bytes} {f : Folder}
    {installed : Option Version} {call : Call} {next : At} (h : Phase good top f installed call next)
    {before : Option Bytes} {r : Except IoError Update} (hcall : call = .returned before r)
    (hr : ∀ v, r ≠ .ok (.installed v)) : f.exe = before := by
  subst hcall
  cases next with
  | idle => exact h.2 hr
  | cleanOld | cleanNew => exact absurd h.2.2 (by simp)
  | create | write =>
    obtain ⟨-, -, v, -, hcall⟩ := h
    exact absurd hcall (by simp)
  | sync | removeOld | putAside =>
    obtain ⟨-, -, -, v, -, hcall⟩ := h
    exact absurd hcall (by simp)
  | putInPlace =>
    obtain ⟨-, -, -, -, v, -, hcall⟩ := h
    exact absurd hcall (by simp)
  | putBack =>
    obtain ⟨-, -, -, v, e, hcall⟩ := h
    exact absurd hcall (by simp)

/-- Once a build is in place, nothing is being installed. -/
theorem Phase.exe_of_installed {good : Bytes → Version → Prop} {top : Bytes} {f : Folder}
    {v : Version} {call : Call} {next : At} (h : Phase good top f (some v) call next) : f.exe = some top := by
  cases next <;> first | exact h.1 | exact absurd h.2.2.2.1 (by simp) | exact absurd h.2.2.1 (by simp)

/-- In every run of checks, restarts and kills in which the old exe can be put back: builds
follow each other only to newer ones that a check accepted, one a process, as INSTALLED
says, and a check that reports none leaves EXE as it was. -/
theorem updates_move_forward (hsigned : Signed M versionOf) {f : Folder} (hf : f.exe = some b₀)
    (h : Run (step X M versionOf) (.init f (versionOf b₀)) tr s) (hback : ∀ x ∈ tr, ¬ LosesExe x) :
    Forward X M versionOf b₀ tr s := by
  have hinv := inv_run hsigned hf h hback
  obtain ⟨older, hbuilds⟩ := builds_eq b₀ tr
  have hexe (b : Bytes) (hb : s.disk.folder.exe = some b) : b = latest b₀ tr := by
    cases hs : s.disk.service with
    | none => exact (hinv.stopped hs).2.2.2 b hb
    | some sv => exact (hinv.live sv hs).phase.exe hb
  have hlatest : latest b₀ tr = b₀ ∨ Verified X M tr (latest b₀ tr) := by
    have hmem : latest b₀ tr ∈ builds b₀ tr := by simp [hbuilds]
    rcases List.mem_append.mp hmem with hmem | hmem
    · exact .inr (hinv.verified _ hmem)
    · exact .inl (List.mem_singleton.mp hmem)
  constructor
  · intro b hb
    rw [hexe b hb]
    exact ⟨by rw [hbuilds]; rfl, hlatest⟩
  · exact hinv.sorted
  · cases hs : s.disk.service with
    | none => simp [(hinv.stopped hs).2.2.1]
    | some sv =>
      cases hi : s.installed with
      | none => simp [((hinv.live sv hs).before hi).1]
      | some v => simp [((hinv.live sv hs).after v hi).1]
  · intro v
    constructor
    · intro hi
      cases hs : s.disk.service with
      | none =>
        rw [(hinv.stopped hs).1] at hi
        exact absurd hi (by simp)
      | some sv =>
        obtain ⟨hfresh, hv⟩ := (hinv.live sv hs).after v hi
        have hphase := (hinv.live sv hs).phase
        rw [hi] at hphase
        exact ⟨_, hfresh, hphase.exe_of_installed, hv⟩
    · rintro ⟨b, hfresh, -, hv⟩
      cases hs : s.disk.service with
      | none =>
        rw [(hinv.stopped hs).2.2.1] at hfresh
        exact absurd hfresh (by simp)
      | some sv =>
        cases hi : s.installed with
        | none =>
          rw [((hinv.live sv hs).before hi).1] at hfresh
          exact absurd hfresh (by simp)
        | some v' =>
          obtain ⟨hfresh', hv'⟩ := (hinv.live sv hs).after v' hi
          rw [hfresh'] at hfresh
          rw [← hv, ← hv', (List.cons.inj hfresh).1]
  · intro before r hcall hr
    cases hs : s.disk.service with
    | none =>
      rw [(hinv.stopped hs).2.1] at hcall
      exact absurd hcall (by simp)
    | some sv => exact (hinv.live sv hs).phase.settled hcall hr

end runs

/-! ## A run -/

/-- The comment of a signature of 9.9.9. -/
def newComment : String := "btrfs-peek 9.9.9 windows-x86_64"

/-- A signature is its comment, and one build is signed. -/
def oneSigned : Minisign where
  Signature := String
  PublicKey := Unit
  decode := .ok
  trustedComment s := s
  fromBase64 _ := .ok ()
  verify _ b s := if b = [1] ∧ s = newComment then .ok () else .error "the signature is not valid"

def newVersion : Version := (commentVersion newComment).get (by decide)

def oneNew (b : Bytes) : Version := if b = [1] then newVersion else .running

theorem signed_oneSigned : Signed oneSigned oneNew := by
  intro k s b v _ hverify hcomment
  have hs : b = [1] ∧ s = newComment := by
    by_contra hne
    have herror : oneSigned.verify k b s = .error "the signature is not valid" := if_neg hne
    rw [herror] at hverify
    exact absurd hverify (by simp)
  obtain ⟨rfl, rfl⟩ := hs
  have hnew : commentVersion newComment = some newVersion := by simp [newVersion]
  exact Option.some.inj (hnew.symm.trans hcomment)

def serves (b : Bytes) : Fetching := ⟨.ok "C:\\Windows\\System32", fun _ => .ok ⟨0, b, []⟩⟩

/-- A check that installs, one after it, and a restart. -/
def updated : List Event :=
  let check := Event.check (serves (utf8 newComment)) (serves [1])
  [.start, .ok, .ok, check, .ok, .ok, .ok, .ok, .ok, .ok, check, .kill, .start]

/-- The new build runs. -/
theorem updates_move_forward_updated : ∃ tr s, Forward Image.crates oneSigned oneNew [0] tr s ∧
    s.disk.folder.exe = some [1] ∧ s.running = newVersion := by
  have hexec : (exec (step Image.crates oneSigned oneNew) (.init ⟨some [0], none, none⟩ (oneNew [0]))
      updated).map (fun s => (s.disk.folder.exe, s.running)) = some (some [1], newVersion) := by
    decide +kernel
  obtain ⟨s, hs, heq⟩ := Option.map_eq_some_iff.mp hexec
  obtain ⟨tr, hrun, hmem⟩ := Run.of_exec_events hs
  refine ⟨tr, s, updates_move_forward signed_oneSigned rfl hrun fun x hx hloses => ?_, ?_⟩
  · obtain ⟨m, e⟩ := x
    have he : e ∈ updated := hmem (m, e) hx
    cases e with
    | fail e => simp [updated] at he
    | _ => exact hloses
  · exact ⟨congrArg Prod.fst heq, congrArg Prod.snd heq⟩

end BtrfsPeek.Helper.Updates
