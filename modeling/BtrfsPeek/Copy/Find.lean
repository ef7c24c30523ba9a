import BtrfsPeek.Fs.Paths

/-!
# Searching a directory tree

`find` of `main.rs`. The log in what it keeps is not the program's: it records for the
proofs what was done.
-/

namespace BtrfsPeek

open Effect

variable {β : Type}

structure FindQuery where
  name : Option (Text → Bool)
  ty : Option Char
  maxDepth : Option Nat
  oneSubvolume : Bool
  noSnapshots : Bool
  stream : Bool

/-- The letter of an entry's type. -/
def findKind (e : Entry) : Char :=
  if e.ftype = FT_DIR then 'd' else if e.ftype = FT_SYMLINK then 'l' else 'f'

def FindQuery.isMatch (q : FindQuery) (e : Entry) : Bool :=
  q.ty.all (· = findKind e) && q.name.all fun glob => glob e.nameLossy

/-- What a search does. -/
inductive FindEvent
  /-- A directory is gone into. -/
  | entered (dir : Loc) (path : Text)
  | listed (dir : Loc)
  /-- Listing the directory failed, or asking whether what it holds is a snapshot. -/
  | unlisted (dir : Loc)
  /-- The turn of one of its entries. -/
  | visited (dir : Loc) (path : Text) (e : Entry)
  /-- The search of an entry failed. -/
  | failed (dir : Loc) (e : Entry) (err : Error)
  /-- The directory is left because of its depth. -/
  | cut (dir : Loc) (path : Text)
  deriving DecidableEq

/-- What a search changes. -/
structure FindWork where
  /-- The directories it is in. -/
  seen : List Loc
  out : List Text
  /-- The lines on standard output. -/
  printed : List Text
  /-- The lines on standard error: a path and its error. -/
  errors : List (Text × Error)
  log : List FindEvent

def FindWork.empty : FindWork := ⟨[], [], [], [], []⟩

abbrev FindM (β α : Type) := EStateM Error (FsState β × FindWork) α

def findRecord (e : FindEvent) : FindM β Unit :=
  onSnd (modify fun w => { w with log := w.log ++ [e] })

def onFind (f : FindWork → FindWork) : FindM β Unit := onSnd (modify f)

/-- Nesting past this is corruption, not a real tree; it also bounds the recursion. -/
def MAX_FIND_DEPTH : Nat := 256

namespace Fs

variable (fs : Fs β) (q : FindQuery)

/-- Whether an entry is another subvolume that is not descended into. -/
def findSkips (e : Entry) : FindM β Bool :=
  if e.subvol = false ∨ isPlaceholder e.loc then pure false
  else if q.oneSubvolume then pure true
  else if q.noSnapshots then onFst (fs.isSnapshot e.loc.tree)
  else pure false

/-- How a directory is searched: its place and its path. -/
abbrev Search (β : Type) := Loc → (path : Text) → FindM β Unit

def findEntries (search : Search β) (dir : Loc) (path : Text) : List Entry → FindM β Unit
  | [] => pure ()
  | e :: es => do
    findRecord (.visited dir path e)
    let child := join path e.nameLossy
    if q.isMatch e then
      if q.stream then onFind fun w => { w with printed := w.printed ++ [child] }
      onFind fun w => { w with out := w.out ++ [child] }
    let skip ← fs.findSkips q e
    if e.ftype = FT_DIR ∧ skip = false then
      match ← attempt (search e.loc child) with
      | .ok () => pure ()
      | .error err => do
        findRecord (.failed dir e err)
        onFind fun w => { w with errors := w.errors ++ [(child, err)] }
    findEntries search dir path es

def findInner (search : Search β) (dir : Loc) (path : Text) : FindM β Unit := do
  let es ← onFst (fs.readdir dir)
  findRecord (.listed dir)
  fs.findEntries q search dir path es

/-- The directory at depth `MAX_FIND_DEPTH - left`. -/
def find : (left : Nat) → Search β
  | 0, dir, path => do
    findRecord (.entered dir path)
    findRecord (.cut dir path)
  | left + 1, dir, path => do
    findRecord (.entered dir path)
    if q.maxDepth.any (· ≤ MAX_FIND_DEPTH - (left + 1)) then
      findRecord (.cut dir path)
    else do
      let w ← MonadState.get
      -- A directory that contains one of its own ancestors would otherwise be
      -- walked until the stack ran out.
      lift (bailIf (dir ∈ w.2.seen)
        (.msg s!"{String.ofList path}: directory loops back to one of its own parents"))
      onFind fun w => { w with seen := dir :: w.seen }
      match ← attempt (fs.findInner q (find left) dir path) with
      | .error e => do
        findRecord (.unlisted dir)
        throw e
      | .ok () => onFind fun w => { w with seen := w.seen.erase dir }

/-- The search of the command, whose path is resolved first. -/
def findPath (path : Text) : FindM β Unit := do
  let loc ← onFst (fs.resolve path)
  fs.find q MAX_FIND_DEPTH loc path

end Fs

end BtrfsPeek
