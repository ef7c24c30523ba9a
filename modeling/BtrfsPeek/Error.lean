import Mathlib.Tactic.Common

/-!
# Errors

What the program fails with. An `IoError` is a `std::io::Error`: its kind and
its text. The program itself never reads the third field, `origin`, which
records for the proofs what kind of call failed. An `Error` is an
`anyhow::Error`: a root and the contexts added to it. `Error.chain` is what
`main` looks through to choose the exit code.
-/

namespace BtrfsPeek

/-- `std::io::ErrorKind`: the kinds the program tells apart, and the others by
number. -/
inductive ErrorKind
  | notFound
  | permissionDenied
  | brokenPipe
  | alreadyExists
  | interrupted
  | unexpectedEof
  | invalidInput
  | invalidData
  | other
  | uncategorized (n : Nat)
  deriving DecidableEq, Repr

/-- What the operating system answers a failed call with. -/
structure OsError where
  kind : ErrorKind
  text : String
  deriving DecidableEq, Repr

/-- Which call of the program failed. -/
inductive Origin
  /-- Opening or reading a device, the helper's pipe included. -/
  | device
  /-- A file or folder of the host, the manifest included. -/
  | host
  /-- A write to standard output. -/
  | stdout
  deriving DecidableEq, Repr

/-- `std::io::Error`. -/
structure IoError where
  kind : ErrorKind
  text : String
  origin : Origin
  deriving DecidableEq, Repr

def OsError.at (e : OsError) (o : Origin) : IoError := ⟨e.kind, e.text, o⟩

/-- `anyhow::Error`: what it was made from, and the contexts around it. -/
inductive Error
  | io (e : IoError)
  /-- `serde_json::Error` around a failed write. Its `source` is that of the
  `io::Error` inside, which therefore is not in the chain. -/
  | json (e : IoError)
  /-- `anyhow!` and `bail!`. -/
  | msg (text : String)
  /-- `fs::NotFound`. -/
  | notFound (path : String)
  | accessDenied
  | incomplete (failures : Nat)
  | context (text : String) (e : Error)
  deriving DecidableEq, Repr

/-- `anyhow::Error::chain`: the error, its source, its source's source. -/
def Error.chain : Error → List Error
  | .context text e => .context text e :: e.chain
  | e => [e]

/-- `{e}`: the outermost error. -/
def Error.text : Error → String
  | .io e => e.text
  | .json e => e.text
  | .msg t => t
  | .notFound path => s!"not found: {path}"
  | .accessDenied => "access denied"
  | .incomplete failures => s!"{failures} entries could not be copied; the copy is incomplete"
  | .context t _ => t

/-- `{e:#}`: the whole chain. -/
def Error.display (e : Error) : String := ": ".intercalate (e.chain.map Error.text)

/-- `if c { bail!(..) }`. -/
def bailIf (c : Prop) [Decidable c] (e : Error) : Except Error Unit :=
  if c then .error e else .ok ()

theorem bailIf_ok_iff {c : Prop} [Decidable c] {e : Error} {u : Unit} :
    bailIf c e = .ok u ↔ ¬ c := by
  unfold bailIf; split_ifs with h <;> simp [h]

theorem eq_of_bailIf {c : Prop} [Decidable c] {e err : Error} (h : bailIf c e = .error err) :
    err = e := by
  unfold bailIf at h
  split_ifs at h
  exact (Except.error.inj h).symm

/-- `.context(..)` and `.with_context(..)`. -/
def withContext {α : Type} (text : String) (r : Except Error α) : Except Error α :=
  r.mapError (.context text)

end BtrfsPeek
