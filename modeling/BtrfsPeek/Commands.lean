import BtrfsPeek.Copy.Failures
import BtrfsPeek.Time

/-!
# The commands

`run` and `main`, of `main.rs`, for the commands that open a filesystem. `println!` and
`eprintln!` panic where their stream fails, so a run may also end with a panic. `main`
chooses the exit code by the errors in the chain.
-/

namespace BtrfsPeek

open Effect

/-! ## What is printed -/

/-- `serde_json::Value`. The keys of an object keep the order they were added in. -/
inductive Json
  | bool (b : Bool)
  | number (n : Int)
  | string (t : Text)
  | array (vs : List Json)
  | object (fields : List (Text × Json))

/-- `json!` of a string. -/
def Json.str (s : String) : Json := .string s.toList

def Json.nat (n : Nat) : Json := .number n

/-- How a value is written as text. -/
structure Serde where
  toStringPretty : Json → Text
  toString : Json → Text

/-- A field of an object. -/
def jsonField (key : String) (v : Json) : Text × Json := (key.toList, v)

/-- `{:o}`. -/
def octal (n : Nat) : Text := Nat.toDigits 8 n

def showNat (n : Nat) : Text := Nat.toDigits 10 n

/-- `{:02x}` of each byte. -/
def hexText (b : Bytes) : Text := b.flatMap fun x => (Nat.toDigits 16 x.toNat).leftpad 2 '0'

def uuid (b : Bytes) : Text :=
  let h := hexText b
  ['-'].intercalate [h.take 8, (h.drop 8).take 4, (h.drop 12).take 4, (h.drop 16).take 4,
    (h.drop 20).take 12]

def modeString (mode : Nat) : Text :=
  let kind := match mode &&& 0o170000 with
    | 0o040000 => 'd'
    | 0o120000 => 'l'
    | 0o020000 => 'c'
    | 0o060000 => 'b'
    | 0o010000 => 'p'
    | 0o140000 => 's'
    | _ => '-'
  kind :: [6, 3, 0].flatMap fun shift =>
    let bits := mode >>> shift &&& 7
    [if bits &&& 4 ≠ 0 then 'r' else '-', if bits &&& 2 ≠ 0 then 'w' else '-',
      if bits &&& 1 ≠ 0 then 'x' else '-']

namespace Row

variable (r : Row)

/-- `iso_time` leaves no 64 bits (`civil_eq`). -/
def mtime : Text := ((isoTime r.mtimeSec).getD "").toList

/-- What `describe` returns. -/
def fields : List (Text × Json) :=
  [jsonField "path" (.string r.path), jsonField "type" (.str r.ty), jsonField "mode" (.string (octal r.mode)),
    jsonField "uid" (.nat r.uid), jsonField "gid" (.nat r.gid), jsonField "size" (.nat r.size),
    jsonField "nlink" (.nat r.nlink), jsonField "mtime" (.string r.mtime), jsonField "inode" (.nat r.inode),
    jsonField "subvolume_id" (.nat r.subvolumeId)] ++ r.target.toList.map fun t => jsonField "target" (.string t)

/-- What `print_long` prints. -/
def long (name : Text) : Text :=
  let kind := if r.ty = "dir" ∨ r.ty = "subvolume" then 0o040000
    else if r.ty = "symlink" then 0o120000 else 0o100000
  let target := r.target.elim [] fun t => " -> ".toList ++ t
  let tag := if r.ty = "subvolume" then "  [subvolume]".toList else []
  let column (w n : Nat) : Text := ' ' :: (showNat n).leftpad w ' '
  modeString (r.mode ||| kind) ++ column 5 r.uid ++ column 5 r.gid ++ column 12 r.size ++
    ' ' :: r.mtime ++ ' ' :: name ++ target ++ tag

end Row

/-- `INCOMPAT_FLAGS`: the bits and their names. -/
def INCOMPAT_FLAGS : List (Nat × String) :=
  [(0, "mixed-backref"), (1, "default-subvol"), (2, "mixed-groups"), (3, "compress-lzo"),
    (4, "compress-zstd"), (5, "big-metadata"), (6, "extended-iref"), (7, "raid56"),
    (8, "skinny-metadata"), (9, "no-holes"), (10, "metadata-uuid"), (11, "raid1c34"),
    (12, "zoned"), (13, "extent-tree-v2"), (14, "raid-stripe-tree"), (16, "simple-quota")]

variable {β η φ ω : Type}

namespace Fs

variable (fs : Fs β)

/-- The devices in the order of their ids. -/
def devicePaths : List String :=
  ((fs.devs.map Prod.fst).eraseDups.insertionSort (· ≤ ·)).filterMap fun id =>
    (fs.devs.lookup id).map (·.path)

def profiles : List String :=
  (fs.chunks.map fun c => s!"{c.kind}:{c.profile}").eraseDups.insertionSort (· ≤ ·)

/-- What `info` prints. -/
def info (default : Nat) : List (Text × Json) :=
  let sb := fs.sb
  [jsonField "devices" (.array (fs.devicePaths.map .str)), jsonField "label" (.string sb.label),
    jsonField "uuid" (.string (uuid sb.fsid)), jsonField "generation" (.nat sb.generation),
    jsonField "total_bytes" (.nat sb.totalBytes), jsonField "bytes_used" (.nat sb.bytesUsed),
    jsonField "num_devices" (.nat sb.numDevices), jsonField "sectorsize" (.nat sb.sectorsize),
    jsonField "nodesize" (.nat sb.nodesize), jsonField "checksum" (.str sb.csumName),
    jsonField "metadata_checksums_verified" (.bool (sb.csumType = 0)),
    jsonField "features" (.array ((INCOMPAT_FLAGS.filter fun f => sb.incompatFlags.testBit f.1).map
      fun f => .str f.2)),
    jsonField "profiles" (.array (fs.profiles.map .str)),
    jsonField "default_subvolume_id" (.nat default), jsonField "clean_unmount" (.bool (sb.logRoot = 0))]

end Fs

namespace Subvol

variable (s : Subvol) (default : Nat)

def fields : List (Text × Json) :=
  [jsonField "id" (.nat s.id), jsonField "parent" (.nat s.parent), jsonField "path" (.string s.path),
    jsonField "readonly" (.bool s.readonly), jsonField "snapshot" (.bool s.snapshot),
    jsonField "generation" (.nat s.generation), jsonField "default" (.bool (s.id = default))]

def line : Text :=
  let tags := (if s.snapshot then ["snapshot".toList] else []) ++
    (if s.readonly then ["readonly".toList] else []) ++
    (if s.id = default then ["default".toList] else [])
  (showNat s.id).leftpad 6 ' ' ++ ' ' :: ' ' :: s.path ++ ' ' :: ' ' :: [','].intercalate tags

end Subvol

namespace Report

variable (r : Report)

def json : Json :=
  .object [jsonField "files" (.nat r.files), jsonField "dirs" (.nat r.dirs), jsonField "symlinks" (.nat r.symlinks),
    jsonField "bytes" (.nat r.bytes), jsonField "excluded" (.nat r.excluded),
    jsonField "failures" (.nat r.failures), jsonField "warnings" (.array (r.warnings.map .str))]

def summary : String :=
  s!"copied {r.files} files, {r.dirs} dirs, {r.symlinks} symlinks, {r.bytes} bytes; {r.excluded} excluded, {r.failures} failed"

end Report

/-! ## Runs -/

/-- The commands that open a filesystem. -/
inductive Cmd
  | info
  | subvols
  | ls (path : Text) (long : Bool)
  | stat (path : Text)
  | cat (path : Text) (offset : Nat) (length : Option Nat)
  | find (path : Text) (name : Option Text) (ty : Option Char) (maxDepth : Option Nat)
    (oneSubvolume noSnapshots : Bool)
  | cp (src : Text) (dest : HostPath) (exclude : List Text) (force oneSubvolume noSnapshots : Bool)
    (manifest : Option HostPath)

/-- What the program runs on, and its libraries. -/
structure System (β η φ ω : Type) where
  platform : Platform
  crates : Crates
  serde : Serde
  unicode : Unicode
  /-- `GlobSetBuilder::build`. -/
  globSet : List (Text → Bool) → Except String (Text → Bool)
  opener : Opener β
  host : HostFs η φ
  stdout : Stdout ω
  stderr : Stdout ω

/-- What a run changes. -/
structure World (β η ω : Type) where
  fs : FsState β
  host : η
  term : ω

/-- Why a run ends early. -/
inductive Stop
  | failed (e : Error)
  | panicked

abbrev RunM (β η ω α : Type) := EStateM Stop (World β η ω) α

/-- A part of a run that works on one part of the world. -/
def onPart {σ α : Type} (get : World β η ω → σ) (set : World β η ω → σ → World β η ω)
    (x : EStateM Error σ α) : RunM β η ω α := fun w =>
  match x (get w) with
  | .ok a s => .ok a (set w s)
  | .error e s => .error (.failed e) (set w s)

def onFs {α : Type} (x : FsM β α) : RunM β η ω α := onPart World.fs (fun w s => { w with fs := s }) x

def failWith {α : Type} (e : Error) : RunM β η ω α := throw (.failed e)

/-- `?` of a result. -/
def question {α : Type} (r : Except Error α) : RunM β η ω α := onFs (lift r)

/-- A line on a stream, which panics if it cannot be written. -/
def printLine (out : Stdout ω) (t : Text) : RunM β η ω Unit := fun w =>
  match out.writeAll (Utf8.toUtf8 (t ++ ['\n'])) w.term with
  | .ok _ o => .ok () { w with term := o }
  | .error _ o => .error .panicked { w with term := o }

def printLines (out : Stdout ω) (ts : List Text) : RunM β η ω Unit := forEach (printLine out) ts

namespace System

variable (S : System β η φ ω)

def println (t : Text) : RunM β η ω Unit := printLine S.stdout t

def eprintln (text : String) : RunM β η ω Unit := printLine S.stderr text.toList

/-- `to_string_pretty` of a value, on a line. -/
def printPretty (v : Json) : RunM β η ω Unit := S.println (S.serde.toStringPretty v)

/-- The fields of an object, a line each: keys are padded to a width. -/
def printFields (width : Nat) (fields : List (Text × Json)) : RunM β η ω Unit :=
  printLines S.stdout (fields.map fun (k, v) =>
    k ++ List.replicate (width - k.length) ' ' ++
      ' ' :: ((S.serde.toString v).dropWhile (· = '"')).rdropWhile (· = '"'))

def runInfo (json : Bool) (fs : Fs β) : RunM β η ω Unit := do
  let fields := fs.info (← onFs fs.defaultSubvol)
  if json then S.printPretty (.object fields) else S.printFields 28 fields

def runSubvols (json : Bool) (fs : Fs β) : RunM β η ω Unit := do
  let subvols ← onFs fs.subvols
  let default ← onFs fs.defaultSubvol
  if json then S.printPretty (.array (subvols.map fun s => .object (s.fields default)))
  else printLines S.stdout (subvols.map fun s => s.line default)

/-- What `ls` appends to a name. -/
def suffix (e : Entry) : Text :=
  if e.ftype = FT_DIR then ['/'] else if e.ftype = FT_SYMLINK then ['@'] else []

def runLs (json : Bool) (fs : Fs β) (path : Text) (long : Bool) : RunM β η ω Unit := do
  let loc ← onFs (fs.resolve path)
  let i ← onFs (fs.inode loc)
  if i.isDir = false then
    let row ← onFs (fs.describe loc path false)
    if json then S.printPretty (.array [.object row.fields]) else S.println (row.long path)
  else
    let es ← onFs (fs.readdir loc)
    if long ∨ json then
      let rows ← onFs (mapEach (fun e => fs.describe e.loc (join path e.nameLossy) e.subvol) es)
      let named := es.zip rows
      if json then
        S.printPretty (.array (named.map fun (e, r) =>
          .object (r.fields ++ [jsonField "name" (.string e.nameLossy)])))
      else printLines S.stdout (named.map fun (e, r) => r.long e.nameLossy)
    else printLines S.stdout (es.map fun e => e.nameLossy ++ suffix e)

def runStat (json : Bool) (fs : Fs β) (path : Text) : RunM β η ω Unit := do
  let loc ← onFs (fs.resolve path)
  let (row, exts) ← onFs (fs.stat loc path)
  let kinds := (exts.map Extent.compressionName).eraseDups.insertionSort (· ≤ ·)
  let fields := row.fields ++
    [jsonField "extents" (.nat exts.length), jsonField "compression" (.array (kinds.map .str))]
  if json then S.printPretty (.object fields) else S.printFields 14 fields

def runCat (fs : Fs β) (path : Text) (offset : Nat) (length : Option Nat) : RunM β η ω Unit :=
  onPart (fun w => (w.fs, w.term)) (fun w s => { w with fs := s.1, term := s.2 })
    (fs.cat S.stdout path offset length)

/-- `--name`, compiled. -/
def nameGlob (name : Option Text) : Except Error (Option (Text → Bool)) :=
  match name with
  | none => .ok none
  | some n =>
    match S.crates.glob n with
    | .ok g => .ok (some g)
    | .error text => .error (.context "--name" (.msg text))

/-- The lines of a search are printed as it goes, on either stream in this order. -/
def runFind (json : Bool) (fs : Fs β) (path : Text) (name : Option Text) (ty : Option Char)
    (maxDepth : Option Nat) (oneSubvolume noSnapshots : Bool) : RunM β η ω Unit := do
  question (bailIf (ty.any (fun t => t ∉ ['f', 'd', 'l']) = true) (.msg "--type must be f, d, or l"))
  let name ← question (S.nameGlob name)
  let q : FindQuery := { name, ty, maxDepth, oneSubvolume, noSnapshots, stream := !json }
  let (r, w) ← onFs (withLocal .empty (attempt (fs.findPath q path)))
  printLines S.stdout w.printed
  printLines S.stderr (w.errors.map fun (child, e) =>
    "btrfs-peek: ".toList ++ child ++ ':' :: ' ' :: e.display.toList)
  question r
  if json then S.printPretty (.array (w.out.map .string))

/-- The globs of `--exclude`, compiled one by one. -/
def excludeGlobs : List Text → Except Error (List (Text → Bool))
  | [] => .ok []
  | e :: es =>
    match S.crates.glob e with
    | .error text => .error (.context s!"--exclude {String.ofList e}" (.msg text))
    | .ok g => do return g :: (← excludeGlobs es)

/-- A copy, and what it reports. -/
def runCopy (c : Copier β η φ) (loc : Loc) (src : Text) (dest : HostPath) : RunM β η ω Report := fun w =>
  match c.copy loc src dest (w.fs, Work.start w.host) with
  | .ok () s => .ok s.2.report { w with fs := s.1, host := s.2.host }
  | .error e s => .error (.failed e) { w with fs := s.1, host := s.2.host }

/-- The manifest is created; it is what the host then has open as such. -/
def createManifest : Option HostPath → RunM β η ω Unit
  | none => pure ()
  | some path => fun w =>
    match S.host.create path w.host with
    | .ok _ h => .ok () { w with host := h }
    | .error e h => .error (.failed (.context s!"creating {path.display}" (hostError e))) { w with host := h }

def runCp (json : Bool) (fs : Fs β) (src : Text) (dest : HostPath) (exclude : List Text)
    (force oneSubvolume noSnapshots : Bool) (manifest : Option HostPath) : RunM β η ω Unit := do
  let globs ← question (S.excludeGlobs exclude)
  S.createManifest manifest
  let loc ← onFs (fs.resolve src)
  let exclude ← question ((S.globSet globs).mapError .msg)
  let opts : Options := { exclude, force, oneSubvolume, noSnapshots, manifest := manifest.isSome }
  let r ← runCopy ⟨fs, S.host, opts, S.platform, S.unicode⟩ loc src dest
  if json then S.printPretty r.json
  else do
    printLines S.stderr (r.warnings.map fun w => (s!"btrfs-peek: warning: {w}").toList)
    S.println r.summary.toList
  -- An incomplete copy must not look like a successful one to a script.
  if r.failures > 0 then failWith (.incomplete r.failures)

def runCmd (json : Bool) (fs : Fs β) : Cmd → RunM β η ω Unit
  | .info => S.runInfo json fs
  | .subvols => S.runSubvols json fs
  | .ls path long => S.runLs json fs path long
  | .stat path => S.runStat json fs path
  | .cat path offset length => S.runCat fs path offset length
  | .find path name ty maxDepth oneSubvolume noSnapshots =>
    S.runFind json fs path name ty maxDepth oneSubvolume noSnapshots
  | .cp src dest exclude force oneSubvolume noSnapshots manifest =>
    S.runCp json fs src dest exclude force oneSubvolume noSnapshots manifest

/-- What is said of a filesystem before anything is done with it. -/
def warnings (fs : Fs β) : List String :=
  (if fs.sb.csumType ≠ 0 then
    [s!"btrfs-peek: warning: this filesystem uses {fs.sb.csumName} checksums, which this tool cannot verify; corruption will not be detected"]
  else []) ++
  (if fs.sb.logRoot ≠ 0 then
    ["btrfs-peek: warning: the filesystem was not cleanly unmounted; writes fsynced just before the crash are not visible"]
  else [])

def run (devices : List String) (json : Bool) (cmd : Cmd) : RunM β η ω Unit := do
  let fs ← onFs (Fs.open S.platform S.crates S.opener devices)
  printLines S.stderr ((warnings fs).map String.toList)
  S.runCmd json fs cmd

end System

/-- Whether it is a `std::io::Error` of the kind that a closed pipe gives. -/
def Error.isBrokenPipe : Error → Bool
  | .io e => e.kind = .brokenPipe
  | _ => false

/-- The code of an error that is printed. -/
def Error.exitCode (e : Error) : Nat :=
  if e.chain.any (fun c => c matches .notFound _) then 3
  else if e.chain.any (fun c => c matches .accessDenied) then 4
  else if e.chain.any (fun c => c matches .incomplete _) then 5
  else 1

/-- The code of a panic. -/
def PANIC : Nat := 101

/-- `main`: the exit code. -/
def System.main (S : System β η φ ω) (devices : List String) (json : Bool) (cmd : Cmd)
    (w : World β η ω) : Nat × World β η ω :=
  match S.run devices json cmd w with
  | .ok () w => (0, w)
  | .error .panicked w => (PANIC, w)
  | .error (.failed e) w =>
    -- A closed pipe (`| head`) is not a failure.
    if e.chain.any Error.isBrokenPipe then (0, w)
    else
      match S.eprintln s!"btrfs-peek: {e.display}" w with
      | .ok () w => (e.exitCode, w)
      | .error _ w => (PANIC, w)

end BtrfsPeek
