import BtrfsPeek.Fs.Open

/-!
# The host

What a copy asks of the host it writes to. A development about the copier holds
for whatever the host answers. A path of the host is the list of its components;
`..` is one.
-/

namespace BtrfsPeek

open Effect

/-- A `Path`: its components. `.` is not among them: `./a` is `a`, and `.` alone, which leads
to where paths start, has no list of its own. -/
abbrev HostPath := List Text

namespace HostPath

/-- What parts components. -/
def isSep (p : Platform) (c : Char) : Bool := c = '/' || (p.windows && c = '\\')

/-- `Path::components`. -/
def components (p : Platform) (t : Text) : HostPath :=
  (t.splitOnP (isSep p)).filter fun c => c ≠ [] ∧ c ≠ ['.']

/-- `Path::join`: an absolute path replaces what it is joined to. -/
def join (p : Platform) (base : HostPath) (t : Text) : HostPath :=
  if t.head?.any (isSep p) then components p t else base ++ components p t

/-- `Path::parent`. -/
def parent (path : HostPath) : Option HostPath :=
  if path = [] then none else some path.dropLast

/-- `Path::file_name`. -/
def fileName (path : HostPath) : Option Text := path.getLast?.filter (· ≠ ['.', '.'])

/-- `Path::with_file_name`. -/
def withFileName (p : Platform) (path : HostPath) (name : Text) : HostPath :=
  join p (if path.fileName.isSome then path.dropLast else path) name

/-- `Path::display`. -/
def display (path : HostPath) : String := String.ofList (['/'].intercalate path)

end HostPath

/-- One line of the manifest: what the host cannot hold. -/
structure ManifestLine where
  path : Text
  dest : HostPath
  ty : String
  mode : String
  uid : Nat
  gid : Nat
  size : Nat
  mtime : Int
  target : Option Text
  deriving DecidableEq, Repr

/-- What a symlink is made as; Windows has two kinds. -/
inductive LinkKind
  | unix
  | dir
  | file
  deriving DecidableEq, Repr

abbrev HostOp (η α : Type) := EStateM OsError η α

/-- The host's files and the open manifest, as far as the copier uses them. `η` is
the state of the host, and `φ` what it names an open file by. -/
structure HostFs (η φ : Type) where
  /-- `Path::is_dir`, which follows symlinks. -/
  isDir : HostPath → HostOp η Bool
  /-- `Path::symlink_metadata`, and of what it gives whether it is a symlink. -/
  symlinkMetadata : HostPath → HostOp η Bool
  createDirAll : HostPath → HostOp η Unit
  removeFile : HostPath → HostOp η Unit
  symlink : LinkKind → (target : Text) → HostPath → HostOp η Unit
  rename : (source dest : HostPath) → HostOp η Unit
  setFileMtime : HostPath → (sec : Int) → (nsec : Nat) → HostOp η Unit
  /-- `File::create`. -/
  create : HostPath → HostOp η φ
  writeAll : φ → Bytes → HostOp η Unit
  /-- `Seek::seek` from the current position. -/
  seek : φ → Nat → HostOp η Unit
  setLen : φ → Nat → HostOp η Unit
  setPermissions : φ → (mode : Nat) → HostOp η Unit
  syncAll : φ → HostOp η Unit
  /-- `serde_json::to_writer` to the manifest. -/
  manifestLine : ManifestLine → HostOp η Unit
  manifestNewline : HostOp η Unit

/-! ## Names -/

/-- The tables of Unicode that `str::to_lowercase` follows. -/
structure Unicode where
  lower : Char → Text
  cased : Char → Bool
  caseIgnorable : Char → Bool

namespace Unicode

variable (U : Unicode)

/-- Whether a capital sigma between these is at the end of a word. -/
def finalSigma (before after : Text) : Bool :=
  (before.reverse.dropWhile U.caseIgnorable).head?.any U.cased &&
    !(after.dropWhile U.caseIgnorable).head?.any U.cased

def lowerFrom (before : Text) : Text → Text
  | [] => []
  | c :: t =>
    (if c = 'Σ' then [if U.finalSigma before t then 'ς' else 'σ'] else U.lower c) ++
      lowerFrom (before ++ [c]) t

/-- `str::to_lowercase`. -/
def toLowercase (t : Text) : Text := U.lowerFrom [] t

end Unicode

def windowsIllegal (c : Char) : Bool := c ∈ ['<', '>', ':', '"', '|', '?', '*']

/-- The names of Windows' devices. -/
def windowsReserved (name : Text) : Bool :=
  let stem := (name.takeWhile (· ≠ '.')).map Char.toUpper
  String.ofList stem ∈ ["CON", "PRN", "AUX", "NUL", "CONIN$", "CONOUT$"] ||
    (stem.length = 4 && String.ofList (stem.take 3) ∈ ["COM", "LPT"] &&
      (stem.drop 3).all Char.isDigit)

/-- Turns a name from the filesystem into exactly one safe path component. -/
def hostName (p : Platform) (name : Text) : Text :=
  let out := name.map fun c =>
    if c = '/' || c = '\\' || c < ' ' || (p.windows && windowsIllegal c) then '_' else c
  -- A run of only dots is navigation, not a name.
  let out := if out = [] ∨ out.all (· = '.') then '_' :: out else out
  if p.windows then
    let out := if out.getLast? = some '.' ∨ out.getLast? = some ' ' then out ++ ['_'] else out
    if windowsReserved out then '_' :: out else out
  else out

end BtrfsPeek
