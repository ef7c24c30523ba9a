import BtrfsPeek.Lib.Machine
import BtrfsPeek.Lib.Bytes

/-!
# Installing an update

`install`, `swap` and `clean_up`, from `helper/windows/updater.rs`: what is under the
three names of the install folder after any run of starts, checks and kills, where
each file operation may fail.

Windows lets a running image be renamed but not deleted or overwritten, so `swap`
puts the old exe aside before the new one takes its place. Between these two renames
there is no exe, and none is left if the process is killed there or if the rename
that puts it back fails. `install_keeps_exe` says that there is no other way to lose
it, that a build which is not whole is never under its name, and that a lost one is
still whole under the name of the old one.
-/

namespace BtrfsPeek.Helper.Install

open Machine

/-- What the names of the install folder name. -/
structure Folder where
  exe : Option Bytes
  new : Option Bytes
  old : Option Bytes
  deriving DecidableEq

/-- The name a running image is under. -/
inductive Image
  | exe
  | old
  deriving DecidableEq

/-- The operation a process does next. -/
inductive At
  /-- `clean_up`'s two. -/
  | cleanOld
  | cleanNew
  /-- None, until a check finds an update. -/
  | idle
  /-- `install`'s, on the bytes it was given. -/
  | create (exe : Bytes)
  | write (exe : Bytes) (done : Nat)
  | sync (exe : Bytes)
  /-- `swap`'s. -/
  | removeOld (exe : Bytes)
  | putAside (exe : Bytes)
  | putInPlace (exe : Bytes)
  | putBack
  deriving DecidableEq

structure Service where
  next : At
  /-- An update is in place: no other is installed before the restart. -/
  installed : Bool
  image : Image
  deriving DecidableEq

structure State where
  folder : Folder
  service : Option Service
  deriving DecidableEq

inductive Act
  /-- The service manager starts the exe. -/
  | start
  /-- A check found a signed newer build, whose bytes these are. -/
  | check (exe : Bytes)
  /-- The next operation succeeds, or fails. -/
  | ok
  | fail
  /-- `n` bytes more are written, and some are left. -/
  | wrote (n : Nat)
  | kill
  deriving DecidableEq

/-- What the success of the next operation makes of the folder and of the service. -/
def Service.succeed (s : Service) (f : Folder) : Option (Folder × Service) :=
  match s.next with
  | .cleanOld => some ({ f with old := none }, { s with next := .cleanNew })
  | .cleanNew => some ({ f with new := none }, { s with next := .idle })
  | .idle => none
  | .create exe => some ({ f with new := some [] }, { s with next := .write exe 0 })
  | .write exe _ => some ({ f with new := some exe }, { s with next := .sync exe })
  | .sync exe => some (f, { s with next := .removeOld exe })
  | .removeOld exe =>
    -- There may be none; one that is running cannot be removed.
    if s.image = .old then none else some ({ f with old := none }, { s with next := .putAside exe })
  | .putAside exe => f.exe.map fun b =>
    ({ f with exe := none, old := some b }, { s with next := .putInPlace exe, image := .old })
  | .putInPlace _ => f.new.map fun b =>
    ({ f with exe := some b, new := none }, { s with next := .idle, installed := true })
  | .putBack => f.old.map fun b =>
    ({ f with exe := some b, old := none }, { s with next := .idle, image := .exe })

/-- What its failure makes of the service; the folder stays as it is. -/
def Service.failed (s : Service) : Option Service :=
  match s.next with
  | .idle => none
  | .cleanOld => some { s with next := .cleanNew }
  | .putInPlace _ => some { s with next := .putBack }
  | _ => some { s with next := .idle }

/-- What an act comes to. The builds that `verify_update` accepts are `verified`. -/
def act (verified : Bytes → Bool) (m : State) : Act → Option State
  | .start =>
    if m.service = none ∧ m.folder.exe.isSome then
      some { m with service := some ⟨.cleanOld, false, .exe⟩ }
    else none
  | .check exe => m.service.bind fun s =>
    if s.next = .idle ∧ s.installed = false ∧ verified exe then
      some { m with service := some { s with next := .create exe } }
    else none
  | .ok => m.service.bind fun s => (s.succeed m.folder).map fun (f, s) => ⟨f, some s⟩
  | .fail => m.service.bind fun s => s.failed.map fun s => { m with service := some s }
  | .wrote n => m.service.bind fun s =>
    match s.next with
    | .write exe done =>
      if done + n < exe.length then
        some ⟨{ m.folder with new := some (exe.take (done + n)) },
          some { s with next := .write exe (done + n) }⟩
      else none
    | _ => none
  | .kill => m.service.map fun _ => { m with service := none }

/-! ## What is kept -/

/-- The exe is whole, and where there is none, the old one is. -/
structure Folder.Safe (complete : Bytes → Prop) (f : Folder) : Prop where
  exe : ∀ b, f.exe = some b → complete b
  aside : f.exe = none → ∃ b, f.old = some b ∧ complete b

/-- What the folder holds when an operation comes next. -/
def At.Ready (complete : Bytes → Prop) (image : Image) (f : Folder) : At → Prop
  | .cleanOld | .cleanNew => image = .exe
  | .idle => True
  | .create exe | .write exe _ => complete exe
  | .sync exe | .removeOld exe => complete exe ∧ f.new = some exe
  | .putAside exe => complete exe ∧ f.new = some exe ∧ f.old = none
  | .putInPlace exe => complete exe ∧ f.new = some exe ∧ f.exe = none
  | .putBack => f.exe = none

structure Service.Safe (complete : Bytes → Prop) (f : Folder) (s : Service) : Prop where
  /-- Where there is no exe, it is the old one that runs. -/
  running : f.exe = none → s.image = .old
  ready : s.next.Ready complete s.image f

structure State.Safe (complete : Bytes → Prop) (m : State) : Prop where
  folder : m.folder.Safe complete
  service : ∀ s, m.service = some s → s.Safe complete m.folder

variable {complete : Bytes → Prop} {f f' : Folder} {s s' : Service}

theorem Service.Safe.exe_of_image (h : s.Safe complete f) (hi : s.image = .exe) : f.exe ≠ none := by
  intro hn
  have := h.running hn
  rw [hi] at this
  exact absurd this (by decide)

theorem succeed_safe (hf : f.Safe complete) (hs : s.Safe complete f)
    (h : s.succeed f = some (f', s')) : f'.Safe complete ∧ s'.Safe complete f' := by
  obtain ⟨next, installed, image⟩ := s
  have hready := hs.ready
  cases next with
  | cleanOld =>
    simp only [Service.succeed, Option.some.injEq, Prod.mk.injEq] at h
    obtain ⟨rfl, rfl⟩ := h
    have hexe := hs.exe_of_image hready
    exact ⟨⟨hf.exe, fun hn => absurd hn hexe⟩, hs.running, hready⟩
  | cleanNew =>
    simp only [Service.succeed, Option.some.injEq, Prod.mk.injEq] at h
    obtain ⟨rfl, rfl⟩ := h
    exact ⟨⟨hf.exe, hf.aside⟩, hs.running, trivial⟩
  | idle => simp [Service.succeed] at h
  | create exe =>
    simp only [Service.succeed, Option.some.injEq, Prod.mk.injEq] at h
    obtain ⟨rfl, rfl⟩ := h
    exact ⟨⟨hf.exe, hf.aside⟩, hs.running, hready⟩
  | write exe done =>
    simp only [Service.succeed, Option.some.injEq, Prod.mk.injEq] at h
    obtain ⟨rfl, rfl⟩ := h
    exact ⟨⟨hf.exe, hf.aside⟩, hs.running, hready, rfl⟩
  | sync exe =>
    simp only [Service.succeed, Option.some.injEq, Prod.mk.injEq] at h
    obtain ⟨rfl, rfl⟩ := h
    exact ⟨hf, hs.running, hready⟩
  | removeOld exe =>
    -- The old one is removed only if it does not run, so that there is an exe.
    by_cases hi : image = .old
    · simp [Service.succeed, hi] at h
    simp only [Service.succeed, hi, if_false, Option.some.injEq, Prod.mk.injEq] at h
    obtain ⟨rfl, rfl⟩ := h
    refine ⟨⟨hf.exe, fun hn => absurd (hs.running hn) hi⟩, hs.running, hready.1, hready.2, rfl⟩
  | putAside exe =>
    simp only [Service.succeed, Option.map_eq_some_iff, Prod.mk.injEq] at h
    obtain ⟨b, hb, rfl, rfl⟩ := h
    exact ⟨⟨nofun, fun _ => ⟨b, rfl, hf.exe b hb⟩⟩, fun _ => rfl, hready.1, hready.2.1, rfl⟩
  | putInPlace exe =>
    obtain ⟨hc, hnew, hnone⟩ := hready
    simp only [Service.succeed, hnew, Option.map_some, Option.some.injEq, Prod.mk.injEq] at h
    obtain ⟨rfl, rfl⟩ := h
    refine ⟨⟨fun b hb => ?_, nofun⟩, nofun, trivial⟩
    rw [← Option.some.inj hb]
    exact hc
  | putBack =>
    obtain ⟨b, hold, hc⟩ := hf.aside hready
    simp only [Service.succeed, hold, Option.map_some, Option.some.injEq, Prod.mk.injEq] at h
    obtain ⟨rfl, rfl⟩ := h
    refine ⟨⟨fun b' hb => ?_, nofun⟩, nofun, trivial⟩
    rw [← Option.some.inj hb]
    exact hc

theorem failed_safe (hs : s.Safe complete f) (h : s.failed = some s') : s'.Safe complete f := by
  obtain ⟨next, installed, image⟩ := s
  have hready := hs.ready
  cases next <;> simp only [Service.failed, Option.some.injEq, reduceCtorEq] at h <;> subst h <;>
    refine ⟨hs.running, ?_⟩
  case cleanOld => exact hready
  case putInPlace => exact hready.2.2
  all_goals trivial

/-- Every act keeps what is safe, where the builds that are verified are whole. -/
theorem act_safe {verified : Bytes → Bool} (hv : ∀ b, verified b = true → complete b) {m m' : State}
    {a : Act} (hm : m.Safe complete) (h : act verified m a = some m') : m'.Safe complete := by
  obtain ⟨f, service⟩ := m
  have hf := hm.folder
  cases a with
  | start =>
    simp only [act] at h
    split_ifs at h with hc
    obtain rfl := Option.some.inj h
    refine ⟨hf, fun s hs => ?_⟩
    obtain rfl := Option.some.inj hs
    refine ⟨fun hn => ?_, rfl⟩
    rw [hn] at hc
    exact absurd hc.2 (by decide)
  | check exe =>
    simp only [act, Option.bind_eq_some_iff] at h
    obtain ⟨s, hs, h⟩ := h
    split_ifs at h with hc
    obtain rfl := Option.some.inj h
    refine ⟨hf, fun s' hs' => ?_⟩
    obtain rfl := Option.some.inj hs'
    exact ⟨(hm.service s hs).running, hv exe hc.2.2⟩
  | ok =>
    simp only [act, Option.bind_eq_some_iff, Option.map_eq_some_iff] at h
    obtain ⟨s, hs, ⟨f', s'⟩, hstep, rfl⟩ := h
    obtain ⟨hf', hs'⟩ := succeed_safe hf (hm.service s hs) hstep
    refine ⟨hf', fun s'' h'' => ?_⟩
    obtain rfl := Option.some.inj h''
    exact hs'
  | fail =>
    simp only [act, Option.bind_eq_some_iff, Option.map_eq_some_iff] at h
    obtain ⟨s, hs, s', hstep, rfl⟩ := h
    refine ⟨hf, fun s'' h'' => ?_⟩
    obtain rfl := Option.some.inj h''
    exact failed_safe (hm.service s hs) hstep
  | wrote n =>
    simp only [act, Option.bind_eq_some_iff] at h
    obtain ⟨s, hs, h⟩ := h
    have hsafe := hm.service s hs
    split at h
    · next exe done hnext =>
      split_ifs at h
      obtain rfl := Option.some.inj h
      refine ⟨⟨hf.exe, hf.aside⟩, fun s' hs' => ?_⟩
      obtain rfl := Option.some.inj hs'
      have hready := hsafe.ready
      rw [hnext] at hready
      exact ⟨hsafe.running, hready⟩
    · exact absurd h (by simp)
  | kill =>
    simp only [act, Option.map_eq_some_iff] at h
    obtain ⟨s, -, rfl⟩ := h
    exact ⟨hf, nofun⟩

/-! ## Where the exe is lost -/

/-- Between the renames of a swap. -/
def At.inSwap : At → Bool
  | .putInPlace _ | .putBack => true
  | _ => false

/-- The process is killed between the renames, or the one that puts the exe back fails. -/
def strands (m : State) (a : Act) : Prop :=
  ∃ s, m.service = some s ∧ (s.next.inSwap = true ∧ a = .kill ∨ s.next = .putBack ∧ a = .fail)

/-- There is an exe, or a swap is between its renames. -/
def Held (m : State) : Prop := m.folder.exe = none → ∃ s, m.service = some s ∧ s.next.inSwap = true

/-- Only the first rename takes the exe away, and the other two put one in its place. -/
theorem succeed_held (h : s.succeed f = some (f', s')) (hs : f.exe = none → s.next.inSwap = true)
    (hn : f'.exe = none) : s'.next.inSwap = true := by
  obtain ⟨next, installed, image⟩ := s
  cases next with
  | putAside exe =>
    simp only [Service.succeed, Option.map_eq_some_iff, Prod.mk.injEq] at h
    obtain ⟨b, -, -, rfl⟩ := h
    rfl
  | putInPlace exe =>
    simp only [Service.succeed, Option.map_eq_some_iff, Prod.mk.injEq] at h
    obtain ⟨b, -, rfl, -⟩ := h
    exact absurd hn (by simp)
  | putBack =>
    simp only [Service.succeed, Option.map_eq_some_iff, Prod.mk.injEq] at h
    obtain ⟨b, -, rfl, -⟩ := h
    exact absurd hn (by simp)
  | removeOld exe =>
    by_cases hi : image = .old
    · simp [Service.succeed, hi] at h
    simp only [Service.succeed, hi, if_false, Option.some.injEq, Prod.mk.injEq] at h
    obtain ⟨rfl, rfl⟩ := h
    exact absurd (hs hn) (by simp [At.inSwap])
  | idle => exact absurd h (by simp [Service.succeed])
  | _ =>
    simp only [Service.succeed, Option.some.injEq, Prod.mk.injEq] at h
    obtain ⟨rfl, rfl⟩ := h
    exact absurd (hs hn) (by simp [At.inSwap])

theorem failed_held (h : s.failed = some s') (hs : s.next.inSwap = true) (hback : s.next ≠ .putBack) :
    s'.next.inSwap = true := by
  obtain ⟨next, installed, image⟩ := s
  cases next with
  | putInPlace exe =>
    simp only [Service.failed, Option.some.injEq] at h
    subst h
    rfl
  | putBack => exact absurd rfl hback
  | _ => exact absurd hs (by simp [At.inSwap])

theorem act_held {verified : Bytes → Bool} {m m' : State} {a : Act} (hm : Held m)
    (hgood : ¬ strands m a) (h : act verified m a = some m') : Held m' := by
  obtain ⟨f, service⟩ := m
  intro hn
  have hin (s : Service) (hs : service = some s) (hf : f.exe = none) : s.next.inSwap = true := by
    obtain ⟨s', hs', hin⟩ := hm hf
    rwa [Option.some.inj (hs.symm.trans hs')]
  cases a with
  | start =>
    simp only [act] at h
    split_ifs at h with hc
    obtain rfl := Option.some.inj h
    rw [show f.exe = none from hn] at hc
    exact absurd hc.2 (by decide)
  | check exe =>
    simp only [act, Option.bind_eq_some_iff] at h
    obtain ⟨s, hs, h⟩ := h
    split_ifs at h with hc
    obtain rfl := Option.some.inj h
    have := hin s hs hn
    rw [hc.1] at this
    exact absurd this (by decide)
  | ok =>
    simp only [act, Option.bind_eq_some_iff, Option.map_eq_some_iff] at h
    obtain ⟨s, hs, ⟨f', s'⟩, hstep, rfl⟩ := h
    exact ⟨s', rfl, succeed_held hstep (hin s hs) hn⟩
  | fail =>
    simp only [act, Option.bind_eq_some_iff, Option.map_eq_some_iff] at h
    obtain ⟨s, hs, s', hstep, rfl⟩ := h
    refine ⟨s', rfl, failed_held hstep (hin s hs hn) ?_⟩
    intro hback
    exact hgood ⟨s, hs, .inr ⟨hback, rfl⟩⟩
  | wrote n =>
    simp only [act, Option.bind_eq_some_iff] at h
    obtain ⟨s, hs, h⟩ := h
    split at h
    · next exe done hnext =>
      split_ifs at h
      obtain rfl := Option.some.inj h
      have := hin s hs hn
      rw [hnext] at this
      exact absurd this (by simp [At.inSwap])
    · exact absurd h (by simp)
  | kill =>
    simp only [act, Option.map_eq_some_iff] at h
    obtain ⟨s, hs, rfl⟩ := h
    exact absurd ⟨s, hs, .inl ⟨hin s hs hn, rfl⟩⟩ hgood

/-- In every run from a folder with a whole exe: what the exe's name names is whole, be it
the one that was there or a verified one. It names nothing only between the renames of a
swap, after a kill there, or once the exe could not be put back; the old one's name then
names a whole build. -/
theorem install_keeps_exe {verified : Bytes → Bool} {f : Folder} {b₀ : Bytes} (hf : f.exe = some b₀)
    {tr : List (State × Act)} {m : State} (h : Run (act verified) ⟨f, none⟩ tr m) :
    (∀ b, m.folder.exe = some b → b = b₀ ∨ verified b = true) ∧
    (m.folder.exe = none →
      (∃ b, m.folder.old = some b ∧ (b = b₀ ∨ verified b = true)) ∧
      ((∃ s, m.service = some s ∧ s.next.inSwap = true) ∨ ∃ x ∈ tr, strands x.1 x.2)) := by
  have h₀ : State.Safe (fun b => b = b₀ ∨ verified b = true) ⟨f, none⟩ := by
    refine ⟨⟨fun b hb => .inl ?_, fun hn => ?_⟩, nofun⟩
    · exact Option.some.inj (hb.symm.trans hf)
    · rw [hn] at hf
      exact absurd hf (by simp)
  have hheld₀ : Held ⟨f, none⟩ := by
    intro hn
    rw [show f.exe = none from hn] at hf
    exact absurd hf (by simp)
  have hsafe := h.invariant h₀ fun _ _ _ hm hstep => act_safe (fun b hb => .inr hb) hm hstep
  have hheld := h.keeps_unless h₀ (fun _ _ _ hm hstep => act_safe (fun b hb => .inr hb) hm hstep)
    hheld₀ fun _ _ _ _ hm hgood hstep => act_held hm hgood hstep
  refine ⟨hsafe.folder.exe, fun hn => ⟨hsafe.folder.aside hn, ?_⟩⟩
  rcases hheld with hheld | hbad
  · exact .inl (hheld hn)
  · exact .inr hbad

/-- A service whose exe is one byte, which installs one of two bytes and is killed once
the old one is aside. -/
def killedInSwap : List Act :=
  [.start, .ok, .ok, .check [1, 2], .ok, .wrote 1, .ok, .ok, .ok, .ok, .kill]

theorem exec_killedInSwap : exec (act (· == [1, 2])) ⟨⟨some [0], none, none⟩, none⟩ killedInSwap =
    some ⟨⟨none, some [1, 2], some [0]⟩, none⟩ := by decide

/-- It leaves the old exe under the old one's name, and its run has a step that strands
it there. -/
theorem install_keeps_exe_killed : ∃ tr m,
    Run (act (· == [1, 2])) ⟨⟨some [0], none, none⟩, none⟩ tr m ∧ m.service = none ∧
      m.folder.old = some [0] ∧ (∃ b, m.folder.old = some b ∧ (b = [0] ∨ (b == [1, 2]) = true)) ∧
      ∃ x ∈ tr, strands x.1 x.2 := by
  obtain ⟨tr, h⟩ := Run.of_exec exec_killedInSwap
  obtain ⟨hold, hwhy⟩ := (install_keeps_exe rfl h).2 rfl
  refine ⟨tr, _, h, rfl, rfl, hold, ?_⟩
  rcases hwhy with ⟨s, hs, -⟩ | hstrands
  · cases hs
  · exact hstrands

/-- And none under its own. -/
theorem exe_lost_killed : ∃ tr m, Run (act (· == [1, 2])) ⟨⟨some [0], none, none⟩, none⟩ tr m ∧
    m.folder.exe = none := by
  obtain ⟨tr, h⟩ := Run.of_exec exec_killedInSwap
  exact ⟨tr, _, h, rfl⟩

end BtrfsPeek.Helper.Install
