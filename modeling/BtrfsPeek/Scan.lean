import BtrfsPeek.ExitCodes
import BtrfsPeek.Fs.Cache
import BtrfsPeek.Helper.Callbacks
import BtrfsPeek.Lib.Words
import BtrfsPeek.Steady

/-!
# Finding filesystems

`scan.rs`, and the `scan` command. What is listed is what the other commands open as far as
its superblock, and what is denied to them is what is counted as denied (`scan_opens`); the
exit code goes by both (`System.mainScan_exits`). On Linux the candidates are the rows of
`/proc/partitions` (`candidates_table`).
-/

namespace BtrfsPeek

open Effect

/-- A filesystem, by one device of it. -/
structure Found where
  device : String
  label : Text
  uuid : Text
  totalBytes : Nat
  bytesUsed : Nat
  numDevices : Nat
  deriving DecidableEq

structure ScanResult where
  filesystems : List Found
  /-- What could not be opened. -/
  accessDenied : List String
  deriving DecidableEq

def Found.of (path : String) (sb : Superblock) : Found where
  device := path
  label := sb.label
  uuid := BtrfsPeek.uuid sb.fsid
  totalBytes := sb.totalBytes
  bytesUsed := sb.bytesUsed
  numDevices := sb.numDevices

/-- A disk and a partition of it. Partition 0 is the whole disk. -/
def harddisk (d p : Nat) : String := s!"\\\\.\\Harddisk{d}Partition{p}"

/-- What a line of `/proc/partitions` names. -/
def deviceName (l : Text) : Option Text := (Words.words Helper.isWhitespace l)[3]?

/-- `candidates`, where `/proc/partitions` has the text `partitions`, if it can be read. -/
def candidates (p : Platform) (partitions : Option Text) : List String :=
  if p.windows then (List.range 32).flatMap fun d => (List.range 65).map fun p => harddisk d p
  else
    match partitions with
    | none => []
    | some text =>
      (((Words.lines '\n' '\r' text).drop 2).filterMap deviceName).map fun n => "/dev/" ++ String.ofList n

section scan

variable {β : Type} (X : Crates) (opener : Opener β)

/-- One turn of the loop of `scan`. -/
def scanDevice (path : String) (out : ScanResult) : EStateM IoError β ScanResult := do
  match ← attempt (Device.open opener path) with
  | .error e =>
    if e.kind = .permissionDenied then pure { out with accessDenied := out.accessDenied ++ [path] }
    else pure out
  | .ok dev =>
    match ← attempt (dev.read SUPER_OFFSET SUPER_SIZE) with
    | .error _ => pure out
    | .ok raw =>
      match Superblock.parse X raw with
      | .error _ => pure out
      | .ok sb => pure { out with filesystems := out.filesystems ++ [Found.of path sb] }

def scanFrom : List String → ScanResult → EStateM IoError β ScanResult
  | [], out => pure out
  | path :: paths, out => do scanFrom paths (← scanDevice X opener path out)

def scan (paths : List String) : EStateM IoError β ScanResult := scanFrom X opener paths ⟨[], []⟩

end scan

/-! ## The command -/

namespace Found

variable (f : Found)

def json : Json :=
  .object [jsonField "device" (.str f.device), jsonField "label" (.string f.label),
    jsonField "uuid" (.string f.uuid), jsonField "total_bytes" (.nat f.totalBytes),
    jsonField "bytes_used" (.nat f.bytesUsed), jsonField "num_devices" (.nat f.numDevices)]

def line (X : Crates) : Text :=
  f.device.toList ++ "  label=".toList ++ (X.debugStr f.label).toList ++ " uuid=".toList ++ f.uuid ++
    " size=".toList ++ showNat f.totalBytes ++ " used=".toList ++ showNat f.bytesUsed ++
    " devices=".toList ++ showNat f.numDevices

end Found

def ScanResult.json (r : ScanResult) : Json :=
  .object [jsonField "filesystems" (.array (r.filesystems.map Found.json)),
    jsonField "access_denied" (.array (r.accessDenied.map .str))]

namespace System

variable {β η φ ω : Type} (S : System β η φ ω)

/-- What is printed of a scan. -/
def printScan (json : Bool) (r : ScanResult) : RunM β η ω Unit :=
  if json then S.printPretty r.json
  else do
    printLines S.stdout (r.filesystems.map fun f => f.line S.crates)
    if r.filesystems = [] then S.println "no btrfs filesystems found".toList else pure ()

/-- What is done with what a scan found. -/
def reportScan (json : Bool) (r : ScanResult) : RunM β η ω Unit := do
  S.printScan json r
  if r.accessDenied = [] then pure ()
  else do
    let how := if S.platform.windows then S.platform.privilegeHint else "rerun with admin/root privileges"
    S.eprintln s!"btrfs-peek: {r.accessDenied.length} devices could not be opened; to scan them, {how}"
    if r.filesystems = [] then failWith .accessDenied else pure ()

/-- `run`, of `scan`. -/
def runScan (json : Bool) (partitions : Option Text) : RunM β η ω Unit := do
  S.reportScan json (← onFs (onDev (scan S.crates S.opener (candidates S.platform partitions))))

/-- `main`, of `scan`. -/
def mainScan (json : Bool) (partitions : Option Text) (w : World β η ω) : Nat × World β η ω :=
  match S.runScan json partitions w with
  | .ok () w => (0, w)
  | .error .panicked w => (PANIC, w)
  | .error (.failed e) w =>
    if e.chain.any Error.isBrokenPipe then (0, w)
    else
      match S.eprintln s!"btrfs-peek: {e.display}" w with
      | .ok () w => (e.exitCode, w)
      | .error _ w => (PANIC, w)

end System

/-! ## What a scan finds -/

section found

variable {β : Type} {p : Platform} {X : Crates} {opener : Opener β} {path : String}

/-- What `Fs::open` makes of one device: it opens, and has a superblock. -/
abbrev Fs.opened (p : Platform) (X : Crates) (opener : Opener β) (path : String) (s : FsState β) :
    Except Error (Opened β) := Result.value (Fs.openDevices p X opener [path] ⟨[], none⟩ s)

/-- What it makes of the device at `path`, which may fail. -/
def openAlone (p : Platform) (X : Crates) (opener : Opener β) (path : String) :
    FsM β (String × Except Error (Opened β)) := do
  let r ← attempt (Fs.openDevices p X opener [path] ⟨[], none⟩)
  pure (path, r)

/-- What it makes of each of several, alone, one after another. -/
def openEach (p : Platform) (X : Crates) (opener : Opener β) (paths : List String) :
    FsM β (List (String × Except Error (Opened β))) := mapEach (openAlone p X opener) paths

/-- What comes of a device of whose superblock `r` is read. -/
def Fs.openedBy (X : Crates) (path : String) (B : Backing β) (r : Except IoError Bytes) :
    Except Error (Opened β) := do
  let raw ← r.mapError fun e => .context s!"{path}: reading superblock" (.io e)
  let sb ← withContext s!"{path}: not a btrfs filesystem" (Superblock.parse X raw)
  pure (addDevice ⟨path, B⟩ sb ⟨[], none⟩)

/-- How it is listed. -/
def Found.ofOpened (path : String) : Except Error (Opened β) → Option Found
  | .ok o => o.best.map (Found.of path)
  | .error _ => none

/-- Whether it fails with the exit code of what needs privileges. -/
def isDenied : Except Error (Opened β) → Bool
  | .ok _ => false
  | .error e => e.exitCode = 4

/-- What is no superblock is so with a message, of no kind that the exit code goes by. -/
theorem Superblock.parse_says (X : Crates) (b : Bytes) :
    Errs (fun e => ∃ text, e = .msg text) (Superblock.parse X b) := by
  have hbail (c : Prop) [Decidable c] (text : String) : Errs (fun e => ∃ text, e = .msg text) (bailIf c (.msg text)) :=
    .ite (fun _ => .error ⟨_, rfl⟩) fun _ => .ok _
  have hb (off len : Nat) : Errs (fun e => ∃ text, e = .msg text) (bytes b off len) :=
    .ite (fun _ => .ok _) fun _ => .error ⟨_, rfl⟩
  have hu (w off : Nat) : Errs (fun e => ∃ text, e = .msg text) (uintAt w b off) := (hb _ _).bind fun _ => .ok _
  have hsum (ty : Nat) : Errs (fun e => ∃ text, e = .msg text) (checkSum X ty b) := by
    refine .ite (fun _ => ?_) fun _ => .ok _
    exact (hu 4 _).bind fun _ => (hb _ _).bind fun _ => hbail _ _
  refine (hb _ _).bind fun magic => (hbail _ _).bind fun _ => (hu 2 _).bind fun ty => ?_
  refine (hsum ty).bind fun _ => (hu 4 _).bind fun sysLen => (hbail _ _).bind fun _ => ?_
  refine (hb _ _).bind fun _ => (hb _ _).bind fun _ => (hu 8 _).bind fun _ => (hu 8 _).bind fun _ => ?_
  refine (hu 8 _).bind fun _ => (hu 8 _).bind fun _ => (hu 8 _).bind fun _ => (hu 8 _).bind fun _ => ?_
  refine (hu 8 _).bind fun _ => (hu 8 _).bind fun _ => (hu 4 _).bind fun sectorsize => ?_
  refine (hu 4 _).bind fun nodesize => (hu 8 _).bind fun _ => (hu 8 _).bind fun _ => (hb _ _).bind fun _ => ?_
  split_ifs
  · exact .ok _
  · exact .error ⟨_, rfl⟩
  · exact .error ⟨_, rfl⟩

theorem Fs.openedBy_of_error {B : Backing β} {raw : Bytes} {e : Error} (h : Superblock.parse X raw = .error e) :
    openedBy X path B (.ok raw) = .error (.context s!"{path}: not a btrfs filesystem" e) := by
  show (withContext _ (Superblock.parse X raw) >>= _) = _
  rw [h]
  rfl

theorem Fs.openedBy_of_ok {B : Backing β} {raw : Bytes} {sb : Superblock} (h : Superblock.parse X raw = .ok sb) :
    openedBy X path B (.ok raw) = .ok (addDevice ⟨path, B⟩ sb ⟨[], none⟩) := by
  show (withContext _ (Superblock.parse X raw) >>= _) = _
  rw [h]
  rfl

/-- A device that does not open. -/
theorem openDevices_of_error {s : FsState β} {e : OsError} {d : β} (h : opener path s.dev = (.error e, d)) :
    Fs.openDevices p X opener [path] ⟨[], none⟩ s =
      .error (openError p path (e.at .device)) { s with dev := d } := by
  have hopen : Fs.openDevice p opener path s = .error (openError p path (e.at .device)) { s with dev := d } := by
    unfold Fs.openDevice Device.open
    rw [h]
  unfold Fs.openDevices
  rw [bind_of_error hopen]

/-- One that does, of which the superblock's bytes are read, or are not. -/
theorem openDevices_of_read {s : FsState β} {B : Backing β} {d d' : β} (h : opener path s.dev = (.ok B, d))
    {r : Except IoError Bytes} (hread : (⟨path, B⟩ : Device β).read SUPER_OFFSET SUPER_SIZE d = done r d') :
    Fs.openDevices p X opener [path] ⟨[], none⟩ s = done (Fs.openedBy X path B r) { s with dev := d' } := by
  have hopen : Fs.openDevice p opener path s = .ok ⟨path, B⟩ { s with dev := d } := by
    unfold Fs.openDevice Device.open
    rw [h]
  have hctx : inContext s!"{path}: reading superblock" (onDev ((⟨path, B⟩ : Device β).read SUPER_OFFSET SUPER_SIZE))
      { s with dev := d } =
        done (r.mapError fun e => .context s!"{path}: reading superblock" (.io e)) { s with dev := d' } := by
    unfold inContext
    rw [onDev_run (s := { s with dev := d }) hread]
    cases r <;> rfl
  unfold Fs.openDevices
  rw [bind_of_ok hopen]
  cases r with
  | error e =>
    rw [bind_of_error hctx]
    rfl
  | ok raw =>
    rw [bind_of_ok hctx]
    dsimp only
    cases hp : Superblock.parse X raw with
    | error e =>
      rw [Fs.openedBy_of_error hp]
      rfl
    | ok sb =>
      rw [Fs.openedBy_of_ok hp]
      rfl

theorem opened_of_error {s : FsState β} {e : OsError} (h : (opener path s.dev).1 = .error e) :
    Fs.opened p X opener path s = .error (openError p path (e.at .device)) := by
  rw [Fs.opened, openDevices_of_error (Prod.ext h rfl)]
  rfl

theorem opened_of_read {s : FsState β} {B : Backing β} (h : (opener path s.dev).1 = .ok B)
    {r : Except IoError Bytes} {d : β}
    (hread : (⟨path, B⟩ : Device β).read SUPER_OFFSET SUPER_SIZE (opener path s.dev).2 = done r d) :
    Fs.opened p X opener path s = Fs.openedBy X path B r := by
  rw [Fs.opened, openDevices_of_read (Prod.ext h rfl) hread, value_done]

theorem openAlone_run (s : FsState β) : openAlone p X opener path s =
    .ok (path, Fs.opened p X opener path s) (Result.state (Fs.openDevices p X opener [path] ⟨[], none⟩ s)) := rfl

theorem openEach_cons (path : String) (paths : List String) : openEach p X opener (path :: paths) = (do
    let c ← openAlone p X opener path
    let cs ← openEach p X opener paths
    pure (c :: cs)) := rfl

/-- What is opened of one device has a superblock. -/
theorem best_of_opened {s s' : FsState β} {o : Opened β}
    (h : Fs.openDevices p X opener [path] ⟨[], none⟩ s = .ok o s') : ∃ sb, o.best = some sb := by
  obtain ⟨dev, _, -, h⟩ := bind_ok_iff.mp h
  obtain ⟨raw, _, -, h⟩ := bind_ok_iff.mp h
  obtain ⟨sb, _, -, h⟩ := bind_ok_iff.mp h
  obtain ⟨_, _, -, h⟩ := bind_ok_iff.mp h
  obtain ⟨rfl, -⟩ := EStateM.Result.ok.inj h
  exact ⟨sb, rfl⟩

/-- What a device adds. -/
def ScanResult.add (out : ScanResult) (path : String) (r : Except Error (Opened β)) : ScanResult where
  filesystems := out.filesystems ++ (Found.ofOpened path r).toList
  accessDenied := out.accessDenied ++ if isDenied r then [path] else []

theorem isDenied_openError (path : String) (e : OsError) :
    isDenied (.error (openError p path (e.at .device)) : Except Error (Opened β)) =
      (e.kind = .permissionDenied : Bool) := by
  unfold openError isDenied
  by_cases hkind : (e.at .device).kind = .permissionDenied
  · rw [if_pos hkind]
    exact (decide_eq_true hkind).symm
  · rw [if_neg hkind]
    exact (decide_eq_false hkind).symm

/-- A device that opened is not denied, whatever comes of it. -/
theorem isDenied_openedBy (B : Backing β) (r : Except IoError Bytes) : isDenied (Fs.openedBy X path B r) = false := by
  cases r with
  | error e =>
    rw [show Fs.openedBy X path B (.error e) = .error (.context s!"{path}: reading superblock" (.io e)) from rfl]
    simp [isDenied, Error.exitCode, Error.chain]
  | ok raw =>
    cases hraw : Superblock.parse X raw with
    | error e =>
      obtain ⟨text, rfl⟩ := Superblock.parse_says X raw e hraw
      rw [Fs.openedBy_of_error hraw]
      simp [isDenied, Error.exitCode, Error.chain]
    | ok sb =>
      rw [Fs.openedBy_of_ok hraw]
      rfl

/-- One turn of the loop agrees with opening in its place. -/
theorem scanDevice_opens (p : Platform) (path : String) (out : ScanResult) (s : FsState β) :
    scanDevice X opener path out s.dev =
      .ok (out.add path (Fs.opened p X opener path s))
        (Result.state (Fs.openDevices p X opener [path] ⟨[], none⟩ s)).dev := by
  rcases ho : opener path s.dev with ⟨e | B, d⟩
  · have hs : Device.open opener path s.dev = .error (e.at .device) d := by
      unfold Device.open
      rw [ho]
    rw [opened_of_error (congrArg Prod.fst ho), openDevices_of_error ho, ScanResult.add, isDenied_openError]
    unfold scanDevice
    rw [bind_run, attempt_run, hs]
    dsimp only [Result.value_error, Result.state_error]
    by_cases hkind : e.kind = .permissionDenied
    · rw [if_pos (show (e.at .device).kind = .permissionDenied from hkind)]
      simp only [hkind, Found.ofOpened, Option.toList_none, List.append_nil, decide_true, if_true]
      rfl
    · rw [if_neg (show ¬ (e.at .device).kind = .permissionDenied from hkind)]
      simp only [hkind, Found.ofOpened, Option.toList_none, List.append_nil, decide_false, Bool.false_eq_true, if_false]
      rfl
  · have hs : Device.open opener path s.dev = .ok ⟨path, B⟩ d := by
      unfold Device.open
      rw [ho]
    obtain ⟨r, d', hread⟩ := Result.exists_done ((⟨path, B⟩ : Device β).read SUPER_OFFSET SUPER_SIZE d)
    rw [Fs.opened, openDevices_of_read ho hread, value_done, state_done]
    unfold scanDevice
    rw [bind_run, attempt_run, hs]
    dsimp only [Result.value_ok, Result.state_ok]
    rw [bind_run, attempt_run, hread, value_done, state_done, ScanResult.add, isDenied_openedBy]
    cases r with
    | error e =>
      rw [show Fs.openedBy X path B (.error e) = .error (.context s!"{path}: reading superblock" (.io e)) from rfl]
      simp [pure_run, Found.ofOpened]
    | ok raw =>
      dsimp only
      cases hraw : Superblock.parse X raw with
      | error e =>
        rw [Fs.openedBy_of_error hraw]
        simp [pure_run, Found.ofOpened]
      | ok sb =>
        rw [Fs.openedBy_of_ok hraw]
        simp [pure_run, Found.ofOpened, Fs.addDevice]

/-- What is opened of each candidate, and what a scan makes of it, from the same state. -/
structure Scanned (paths : List String) (each : List (String × Except Error (Opened β))) (out r : ScanResult) :
    Prop where
  paths : each.map Prod.fst = paths
  best : ∀ c ∈ each, ∀ o, c.2 = .ok o → ∃ sb, o.best = some sb
  listed : r.filesystems = out.filesystems ++ each.filterMap fun c => Found.ofOpened c.1 c.2
  denied : r.accessDenied = out.accessDenied ++ (each.filter fun c => isDenied c.2).map Prod.fst

theorem scanFrom_opens (p : Platform) (X : Crates) (opener : Opener β) :
    ∀ (paths : List String) (out : ScanResult) (s : FsState β), ∃ each r s',
      openEach p X opener paths s = .ok each s' ∧ scanFrom X opener paths out s.dev = .ok r s'.dev ∧
        Scanned paths each out r
  | [], out, s => ⟨[], out, s, rfl, rfl, rfl, fun _ h => absurd h List.not_mem_nil, by simp, by simp⟩
  | path :: paths, out, s => by
    obtain ⟨each, r, s', heach, hscan, hrest⟩ := scanFrom_opens p X opener paths
      (out.add path (Fs.opened p X opener path s)) (Result.state (Fs.openDevices p X opener [path] ⟨[], none⟩ s))
    refine ⟨(path, Fs.opened p X opener path s) :: each, r, s', ?_, ?_, ?_, ?_, ?_, ?_⟩
    · rw [openEach_cons, bind_of_ok (openAlone_run s), bind_of_ok heach, pure_run]
    · rw [scanFrom, bind_of_ok (scanDevice_opens p path out s), hscan]
    · rw [List.map_cons, hrest.paths]
    · intro c hc o ho
      rcases List.mem_cons.mp hc with rfl | hc
      · obtain ⟨s'', hrun⟩ : ∃ s'', Fs.openDevices p X opener [path] ⟨[], none⟩ s = .ok o s'' :=
          Result.ok_of_value ho
        exact best_of_opened hrun
      · exact hrest.best c hc o ho
    · rw [hrest.listed]
      cases hf : Found.ofOpened path (Fs.opened p X opener path s) <;> simp [ScanResult.add, hf]
    · rw [hrest.denied]
      cases hd : isDenied (Fs.opened p X opener path s) <;> simp [ScanResult.add, hd]

/-- What is listed is what opens as far as its superblock, and what counts as denied is what
fails to open for want of privileges, in the order of the candidates, each opened alone in its
turn; whatever the devices answer. -/
theorem scan_opens (p : Platform) (X : Crates) (opener : Opener β) (paths : List String) (s : FsState β) :
    ∃ each s', openEach p X opener paths s = .ok each s' ∧ each.map Prod.fst = paths ∧
      scan X opener paths s.dev =
        .ok ⟨each.filterMap fun c => Found.ofOpened c.1 c.2,
          (each.filter fun c => isDenied c.2).map Prod.fst⟩ s'.dev := by
  obtain ⟨each, ⟨listed, denied⟩, s', heach, hscan, hscanned⟩ := scanFrom_opens p X opener paths ⟨[], []⟩ s
  obtain rfl : listed = _ := hscanned.listed
  obtain rfl : denied = _ := hscanned.denied
  exact ⟨each, s', heach, hscanned.paths, hscan⟩

/-- A partition with a filesystem on it, and others that are denied. -/
def Image.onePartition : Opener Unit := fun path s =>
  if path = "/dev/sda1" then (.ok ((image [] []).backing SIZE), s)
  else (.error ⟨.permissionDenied, "Permission denied (os error 13)"⟩, s)

example : Result.passes (fun r _ => r.filesystems.map Found.device = ["/dev/sda1"] ∧ r.accessDenied = ["/dev/sda"])
    (scan Image.crates Image.onePartition ["/dev/sda", "/dev/sda1"] ()) = true := by decide +kernel

/-! ### Of steady devices -/

/-- Devices that are steady open alike from any two states. -/
theorem opened_same (hop : SteadyOpener opener) (s t : FsState β) :
    Fs.opened p X opener path s = Fs.opened p X opener path t := by
  have hsame := hop.same path s.dev t.dev
  cases ht : (opener path t.dev).1 with
  | error e => rw [opened_of_error ht, opened_of_error (hsame.trans ht)]
  | ok B =>
    obtain ⟨c, hc⟩ := hop.holds path t.dev B ht
    obtain ⟨r, hr⟩ : ∃ r, ∀ s, ∃ s', (⟨path, B⟩ : Device β).read SUPER_OFFSET SUPER_SIZE s = done r s' :=
      ⟨_, Device.read_of_holds hc SUPER_SIZE (show SUPER_OFFSET < 2 ^ 64 by decide)⟩
    obtain ⟨_, hread⟩ := hr (opener path t.dev).2
    obtain ⟨_, hread'⟩ := hr (opener path s.dev).2
    rw [opened_of_read ht hread, opened_of_read (hsame.trans ht) hread']

theorem openEach_same (hop : SteadyOpener opener) (t : FsState β) : ∀ (paths : List String) (s : FsState β),
    ∃ s', openEach p X opener paths s = .ok (paths.map fun path => (path, Fs.opened p X opener path t)) s'
  | [], s => ⟨s, rfl⟩
  | path :: paths, s => by
    obtain ⟨s', hrest⟩ := openEach_same hop t paths (Result.state (Fs.openDevices p X opener [path] ⟨[], none⟩ s))
    refine ⟨s', ?_⟩
    rw [openEach_cons, bind_of_ok (openAlone_run s), bind_of_ok hrest, pure_run, List.map_cons, opened_same hop s t]

/-- A scan of steady devices finds the same from whatever state. -/
theorem scan_same (hop : SteadyOpener opener) (p : Platform) (paths : List String) (s : β) (t : FsState β) :
    ∃ s', scan X opener paths s =
      .ok ⟨paths.filterMap fun path => Found.ofOpened path (Fs.opened p X opener path t),
        paths.filter fun path => isDenied (Fs.opened p X opener path t)⟩ s' := by
  obtain ⟨each, ⟨listed, denied⟩, s', heach, hscan, hscanned⟩ :=
    scanFrom_opens p X opener paths ⟨[], []⟩ { t with dev := s }
  obtain ⟨_, hsame⟩ := openEach_same (p := p) (X := X) hop t paths { t with dev := s }
  obtain ⟨rfl, -⟩ := EStateM.Result.ok.inj (heach.symm.trans hsame)
  obtain rfl : listed = _ := hscanned.listed
  obtain rfl : denied = _ := hscanned.denied
  refine ⟨s'.dev, hscan.trans ?_⟩
  simp [List.filterMap_map, List.filter_map, Function.comp_def]

end found

/-! ## The exit code of a scan -/

namespace System

variable {β η φ ω : Type} {S : System β η φ ω}

/-- Of a scan there is nothing to note. -/
theorem reportScan_fails (json : Bool) (r : ScanResult) {w w' : World β η ω} {stop : Stop}
    (h : S.reportScan json r w = .error stop w') :
    Stop.Within (fun e => e = .accessDenied ∧ r.filesystems = [] ∧ r.accessDenied ≠ []) stop := by
  let : Noting β := .never
  let : Noting η := .never
  have hprint : FailsWith (Stop.Within fun e => e = .accessDenied ∧ r.filesystems = [] ∧ r.accessDenied ≠ [])
      (S.printScan json r) := by
    refine .ite (fun _ => println_fails _) fun _ => (printLines_fails _ _).bind fun _ => ?_
    exact .ite (fun _ => println_fails _) fun _ => .pure _
  have hreport : FailsWith (Stop.Within fun e => e = .accessDenied ∧ r.filesystems = [] ∧ r.accessDenied ≠ [])
      (S.reportScan json r) := by
    refine hprint.bind fun _ => .ite (fun _ => .pure _) fun hdenied => (printLine_fails S.stderr _).bind fun _ => ?_
    exact .ite (fun hnone => .throw ⟨rfl, hnone, hdenied⟩) fun _ => .pure _
  exact (hreport.errs w stop w' h).resolve_right (by rintro (h | h) <;> exact h)

theorem reportScan_ok {json : Bool} {r : ScanResult} {w w' : World β η ω} (h : S.reportScan json r w = .ok () w') :
    r.filesystems ≠ [] ∨ r.accessDenied = [] := by
  obtain ⟨_, w₁, -, h⟩ := bind_ok_iff.mp h
  by_cases hdenied : r.accessDenied = []
  · exact .inr hdenied
  · rw [if_neg hdenied] at h
    obtain ⟨_, w₂, -, h⟩ := bind_ok_iff.mp h
    refine .inl fun hnone => ?_
    rw [if_pos hnone] at h
    cases h

/-- How the exit code goes by what was found. -/
structure CodeOf (r : ScanResult) (code : Nat) : Prop where
  known : code = 0 ∨ code = 4 ∨ code = PANIC
  zero : code = 0 → r.filesystems ≠ [] ∨ r.accessDenied = []
  four : code = 4 → r.filesystems = [] ∧ r.accessDenied ≠ []

theorem mainScan_of_scan {json : Bool} {partitions : Option Text} {w : World β η ω} {r : ScanResult} {d : β}
    (h : scan S.crates S.opener (candidates S.platform partitions) w.fs.dev = .ok r d) :
    CodeOf r (S.mainScan json partitions w).1 := by
  have hrun : S.runScan json partitions w = S.reportScan json r { w with fs := { w.fs with dev := d } } := by
    unfold runScan
    refine bind_of_ok ?_
    unfold onFs onPart onDev
    rw [h]
  have hpanic : CodeOf r PANIC := ⟨.inr (.inr rfl), fun h => absurd h (by decide), fun h => absurd h (by decide)⟩
  unfold mainScan
  rw [hrun]
  generalize ({ w with fs := { w.fs with dev := d } } : World β η ω) = w₁
  cases hreport : S.reportScan json r w₁ with
  | ok u w₂ =>
    show CodeOf r 0
    exact ⟨.inl rfl, fun _ => reportScan_ok hreport, fun h => absurd h (by decide)⟩
  | error stop w₂ =>
    have hwhy := reportScan_fails json r hreport
    cases stop with
    | panicked => exact hpanic
    | failed e =>
      obtain ⟨rfl, hf, hd⟩ := hwhy
      dsimp only
      rw [if_neg (show ¬ Error.accessDenied.chain.any Error.isBrokenPipe = true by decide)]
      cases S.eprintln s!"btrfs-peek: {Error.accessDenied.display}" w₂ with
      | error stop w₃ => exact hpanic
      | ok u w₃ =>
        show CodeOf r 4
        exact ⟨.inr (.inl rfl), fun h => absurd h (by decide), fun _ => ⟨hf, hd⟩⟩

/-- Exit code 4 says that nothing opens and something is denied, and 0 that this is not so; there
is no other but a panic's. -/
structure ScanExits (each : List (String × Except Error (Opened β))) (code : Nat) : Prop where
  known : code = 0 ∨ code = 4 ∨ code = PANIC
  zero : code = 0 → (∃ c ∈ each, c.2.isOk) ∨ ∀ c ∈ each, isDenied c.2 = false
  four : code = 4 → (∀ c ∈ each, ¬ c.2.isOk) ∧ ∃ c ∈ each, isDenied c.2 = true

/-- Whatever the candidates' devices answer, each opened alone in its turn. -/
theorem mainScan_exits (S : System β η φ ω) (json : Bool) (partitions : Option Text) (w : World β η ω) :
    ∃ each s', openEach S.platform S.crates S.opener (candidates S.platform partitions) w.fs = .ok each s' ∧
      each.map Prod.fst = candidates S.platform partitions ∧
      ScanExits each (S.mainScan json partitions w).1 := by
  obtain ⟨each, r, s', heach, hscan, hscanned⟩ := scanFrom_opens S.platform S.crates S.opener
    (candidates S.platform partitions) ⟨[], []⟩ w.fs
  have hcode : CodeOf r (S.mainScan json partitions w).1 := mainScan_of_scan hscan
  have hfound : r.filesystems = [] ↔ ∀ c ∈ each, ¬ c.2.isOk := by
    rw [hscanned.listed, List.nil_append, List.filterMap_eq_nil_iff]
    refine forall₂_congr fun c hc => ?_
    rcases c with ⟨path, e | o⟩
    · simp [Found.ofOpened, Except.isOk, Except.toBool]
    · obtain ⟨sb, hsb⟩ := hscanned.best _ hc o rfl
      simp [Found.ofOpened, hsb, Except.isOk, Except.toBool]
  have hdenied : r.accessDenied = [] ↔ ∀ c ∈ each, isDenied c.2 = false := by
    simp [hscanned.denied, List.filter_eq_nil_iff]
  refine ⟨each, s', heach, hscanned.paths, hcode.known, fun h => ?_, fun h => ?_⟩
  · refine (hcode.zero h).imp (fun hne => ?_) hdenied.mp
    simp only [ne_eq, hfound, not_forall, not_not, exists_prop] at hne
    exact hne
  · obtain ⟨hnil, hne⟩ := hcode.four h
    simp only [ne_eq, hdenied, not_forall, exists_prop, Bool.not_eq_false] at hne
    exact ⟨hfound.mp hnil, hne⟩

example : (({ Image.interruptedSystem Image.fileDisk with opener := Image.onePartition } : System _ _ _ _).mainScan false
    (some "major minor  #blocks  name\n\n   8        0       1000 sda\n".toList) ⟨.empty (), (), []⟩).1 = 4 := by
  decide +kernel

end System

/-! ## Candidates -/

/-- A row of `/proc/partitions`. -/
structure PartitionRow where
  major : Nat
  minor : Nat
  blocks : Nat
  name : Text

/-- A number in a column. -/
def column (w n : Nat) : Text := (showNat n).leftpad w ' '

/-- How Linux writes it. -/
def PartitionRow.text (r : PartitionRow) : Text :=
  column 4 r.major ++ ' ' :: ' ' :: (column 7 r.minor ++ ' ' :: (column 10 r.blocks ++ ' ' :: r.name))

/-- The table as Linux writes it. -/
def partitionTable (rows : List PartitionRow) : Text :=
  "major minor  #blocks  name".toList ++ ('\n' :: '\n' :: rows.flatMap fun r => r.text ++ ['\n'])

/-- A name of one word. -/
def PartitionRow.Named (r : PartitionRow) : Prop := r.name ≠ [] ∧ ∀ c ∈ r.name, Helper.isWhitespace c = false

theorem isWhitespace_digit {n : Nat} {c : Char} (h : c ∈ showNat n) : Helper.isWhitespace c = false := by
  have hrange := Decimal.digit_range (Decimal.isDigit_of_mem h)
  simp only [Helper.isWhitespace, Bool.or_eq_false_iff, Bool.and_eq_false_iff, decide_eq_false_iff_not,
    beq_eq_false_iff_ne]
  omega

theorem words_column (w n : Nat) {rest : Text} (hrest : ∀ c ∈ rest.head?, Helper.isWhitespace c = true) :
    Words.words Helper.isWhitespace (column w n ++ rest) = showNat n :: Words.words Helper.isWhitespace rest := by
  have hblank : ∀ c ∈ List.replicate (w - (showNat n).length) ' ', Helper.isWhitespace c = true := by
    intro c hc
    rw [List.eq_of_mem_replicate hc]
    decide
  rw [column, List.leftpad, List.append_assoc, Words.words_blanks_append hblank]
  exact Words.words_append Nat.toDigits_ne_nil (fun c hc => isWhitespace_digit hc) hrest

namespace PartitionRow

variable {r : PartitionRow}

theorem words_text (h : r.Named) :
    Words.words Helper.isWhitespace r.text = [showNat r.major, showNat r.minor, showNat r.blocks, r.name] := by
  have hspace : Helper.isWhitespace ' ' = true := by decide
  have hname := Words.words_append (r := []) h.1 h.2 (by simp)
  rw [List.append_nil] at hname
  rw [text, words_column _ _ (by simp [hspace]), Words.words_cons_blank hspace, Words.words_cons_blank hspace,
    words_column _ _ (by simp [hspace]), Words.words_cons_blank hspace, words_column _ _ (by simp [hspace]),
    Words.words_cons_blank hspace, hname]
  rfl

theorem deviceName_text (h : r.Named) : deviceName r.text = some r.name := by
  rw [deviceName, words_text h]
  rfl

theorem not_mem_text (h : r.Named) {c : Char} (hc : Helper.isWhitespace c = true) (hne : c ≠ ' ') : c ∉ r.text := by
  have hcolumn (w n : Nat) : c ∉ column w n := by
    intro hm
    rcases List.mem_append.mp hm with hm | hm
    · exact hne (List.eq_of_mem_replicate hm)
    · rw [isWhitespace_digit hm] at hc
      cases hc
  have hname : c ∉ r.name := by
    intro hm
    rw [h.2 c hm] at hc
    cases hc
  simp [text, hcolumn, hname, hne]

end PartitionRow

/-- On Linux, the candidates are what the rows name. -/
theorem candidates_table {p : Platform} (hp : p.windows = false) {rows : List PartitionRow}
    (h : ∀ r ∈ rows, r.Named) :
    candidates p (some (partitionTable rows)) = rows.map fun r => "/dev/" ++ String.ofList r.name := by
  have hlines : ∀ rows : List PartitionRow, (∀ r ∈ rows, r.Named) →
      (Words.lines '\n' '\r' (rows.flatMap fun r => r.text ++ ['\n'])).filterMap deviceName =
        rows.map PartitionRow.name := by
    intro rows
    induction rows with
    | nil => exact fun _ => rfl
    | cons r rows ih =>
      intro h
      obtain ⟨hr, hrows⟩ := List.forall_mem_cons.mp h
      rw [List.flatMap_cons, List.append_assoc, List.singleton_append,
        Words.lines_append (PartitionRow.not_mem_text hr (by decide) (by decide))
          (PartitionRow.not_mem_text hr (by decide) (by decide)),
        List.filterMap_cons_some (PartitionRow.deviceName_text hr), ih hrows, List.map_cons]
  have htable : (Words.lines '\n' '\r' (partitionTable rows)).drop 2 =
      Words.lines '\n' '\r' (rows.flatMap fun r => r.text ++ ['\n']) := by
    unfold partitionTable
    generalize (rows.flatMap fun r => r.text ++ ['\n']) = text
    have hblank : Words.lines '\n' '\r' ('\n' :: text) = [] :: Words.lines '\n' '\r' text :=
      Words.lines_append List.not_mem_nil List.not_mem_nil text
    rw [Words.lines_append (by decide) (by decide), hblank, List.drop_succ_cons, List.drop_succ_cons, List.drop_zero]
  unfold candidates
  rw [hp, if_neg (by decide)]
  dsimp only
  rw [htable, hlines rows h, List.map_map]
  rfl

theorem PartitionRow.named_of_all {r : PartitionRow} (hne : r.name ≠ [])
    (h : (r.name.all fun c => !Helper.isWhitespace c) = true) : r.Named :=
  ⟨hne, fun c hc => by simpa using List.all_eq_true.mp h c hc⟩

theorem candidates_table_two :
    candidates ⟨false⟩ (some (partitionTable [⟨8, 0, 1000, "sda".toList⟩, ⟨259, 1, 5, "nvme0n1p1".toList⟩])) =
      ["/dev/sda", "/dev/nvme0n1p1"] :=
  (candidates_table rfl (by
    intro r hr
    simp only [List.mem_cons, List.not_mem_nil, or_false] at hr
    rcases hr with rfl | rfl
    · exact PartitionRow.named_of_all (by simp) (by decide)
    · exact PartitionRow.named_of_all (by simp) (by decide))).trans (by decide +kernel)

end BtrfsPeek
