import BtrfsPeek.Copy.Limits
import BtrfsPeek.Lib.FileTree

/-!
# A Unix host

The files of a Unix host, and what the copier's calls do to them: `File::create` follows
a link that stands where it is to make the file, `rename` and `remove_file` do not. Any
call that changes something may fail instead.

`UnixHost.Within` is what a copy is to keep: nothing that was there is changed, but that
some directories have more in them.
-/

namespace BtrfsPeek

open Effect SparseFile

/-- What was set of a file. -/
structure FileInfo where
  mtime : Option (Int × Nat)
  mode : Option Nat

abbrev HostTree := FileTree.Tree Text Bytes FileInfo

abbrev HostNode := FileTree.Node Text Bytes FileInfo

/-- What a call is made to fail with, and how much of a write is done all the same. -/
structure Fault where
  error : OsError
  written : Nat

structure UnixHost where
  files : HostTree
  /-- Where paths start. -/
  cwd : Nat
  /-- The file that is open: the path it was made at, its node and the position in it. -/
  opened : Option (HostPath × Nat × Nat)
  manifest : List ManifestLine
  /-- How many calls there were, and which of them fail. -/
  calls : Nat
  faults : Nat → Option Fault
  /-- The nodes that were acted on. It records for the proofs what was done. -/
  acted : List Nat

namespace UnixHost

/-- The links that a host follows on one path. -/
def LINKS : Nat := 40

def noEntry : OsError := ⟨.notFound, "No such file or directory (os error 2)"⟩

def fileExists : OsError := ⟨.alreadyExists, "File exists (os error 17)"⟩

def isDirectory : OsError := ⟨.uncategorized 21, "Is a directory (os error 21)"⟩

def badFile : OsError := ⟨.uncategorized 9, "Bad file descriptor (os error 9)"⟩

def step (name : Text) : FileTree.Step Text := if name = ['.', '.'] then .up else .name name

def steps (path : HostPath) : List (FileTree.Step Text) := path.map step

/-- What the text of a symlink leads to. -/
def linkTarget (t : Text) : FileTree.Target Text :=
  ⟨t.head? = some '/', steps (HostPath.components ⟨false⟩ t)⟩

section looking

variable (h : UnixHost) (path : HostPath)

def walk : Option Nat := h.files.walk LINKS h.cwd (steps path)

def spot : Option (Nat × Text) := h.files.spot LINKS h.cwd (steps path)

/-- At the empty path there is nothing. -/
def find : Option Nat := if path = [] then none else h.files.find LINKS h.cwd (steps path)

def place : Option (Nat ⊕ Nat × Text) := h.files.place LINKS LINKS h.cwd (steps path)

/-- Whether a path leads to a directory from where paths start. -/
def isDir : Bool := h.walk path |>.any h.files.isDir

/-- Whether it is a symlink, if something is there. -/
def symlinkMetadata : Except OsError Bool :=
  match h.find path with
  | none => .error noEntry
  | some n => .ok (h.files.isLink n)

end looking

/-! ## Changes -/

/-- A new node, with a name. -/
def putNode (h : UnixHost) (d : Nat) (x : Text) (v : HostNode) : UnixHost :=
  { h with
    files := (h.files.add v).setEntry d x (some h.files.size)
    acted := h.acted ++ [d, h.files.size] }

def alterNode (h : UnixHost) (n : Nat) (f : HostNode → HostNode) : UnixHost :=
  { h with files := h.files.alter n f, acted := h.acted ++ [n] }

/-- What is made where nothing is. -/
def make (path : HostPath) (v : Nat → HostNode) (h : UnixHost) : Except OsError UnixHost :=
  match h.spot path with
  | none => .error noEntry
  | some (d, x) =>
    match h.files.lookup d x with
    | some _ => .error fileExists
    | none => .ok (h.putNode d x (v d))

def newDir (parent : Nat) : HostNode := ⟨.dir parent fun _ => none, none, none⟩

def newLink (target : Text) : HostNode := ⟨.link (linkTarget target), none, none⟩

def newFile : HostNode := ⟨.file [], none, none⟩

def unlink (path : HostPath) (h : UnixHost) : Except OsError UnixHost :=
  match h.spot path with
  | none => .error noEntry
  | some (d, x) =>
    match h.files.lookup d x with
    | none => .error noEntry
    | some n =>
      if h.files.isDir n then .error isDirectory
      else .ok { h with files := h.files.setEntry d x none, acted := h.acted ++ [d] }

/-- What is at `source` is at `dest` instead. A directory is not moved: what the copier
moves it has just written. -/
def move (source dest : HostPath) (h : UnixHost) : Except OsError UnixHost :=
  match h.spot source, h.spot dest with
  | some (d, x), some (d', x') =>
    match h.files.lookup d x with
    | none => .error noEntry
    | some n =>
      -- Two names of one file are left as they are.
      if h.files.lookup d' x' = some n then .ok h
      else if h.files.isDir n || (h.files.lookup d' x').any h.files.isDir then .error isDirectory
      else
        .ok { h with
          files := (h.files.setEntry d x none).setEntry d' x' (some n)
          acted := h.acted ++ [d, d'] }
  | _, _ => .error noEntry

def openNew (path : HostPath) (h : UnixHost) : Except OsError UnixHost :=
  match h.place path with
  | none => .error noEntry
  | some (.inl n) =>
    if h.files.isDir n then .error isDirectory
    else .ok { h.alterNode n fun v => { v with body := .file [] } with opened := some (path, n, 0) }
  | some (.inr (d, x)) =>
    .ok { h.putNode d x newFile with opened := some (path, h.files.size, 0) }

/-- What is done to the bytes of the open file and to the position. -/
def withOpen (path : HostPath) (f : Bytes → Nat → Bytes × Nat) (h : UnixHost) : Except OsError UnixHost :=
  match h.opened with
  | none => .error badFile
  | some (p, n, pos) =>
    match h.files.body n with
    | some (.file b) =>
      if p = path then
        .ok { h.alterNode n fun v => { v with body := .file (f b pos).1 } with
          opened := some (p, n, (f b pos).2) }
      else .error badFile
    | _ => .error badFile

def chmodOpen (path : HostPath) (mode : Nat) (h : UnixHost) : Except OsError UnixHost :=
  match h.opened with
  | none => .error badFile
  | some (p, n, _) =>
    if p = path then .ok (h.alterNode n fun v => { v with info := { v.info with mode := some mode } })
    else .error badFile

def touch (path : HostPath) (sec : Int) (nsec : Nat) (h : UnixHost) : Except OsError UnixHost :=
  match h.walk path with
  | none => .error noEntry
  | some n =>
    if path = [] then .error noEntry
    else .ok (h.alterNode n fun v => { v with info := { v.info with mtime := some (sec, nsec) } })

/-! ## Calls -/

/-- A call that changes something, and what is done of it when it is made to fail. -/
def call (partly : Nat → UnixHost → UnixHost) (x : UnixHost → Except OsError UnixHost) :
    HostOp UnixHost Unit := fun h =>
  let h' := { h with calls := h.calls + 1 }
  match h.faults h.calls with
  | some f => .error f.error (partly f.written h')
  | none =>
    match x h' with
    | .ok h'' => .ok () h''
    | .error e => .error e h'

/-- One that does nothing then. -/
def whole : (UnixHost → Except OsError UnixHost) → HostOp UnixHost Unit := call fun _ h => h

def mkdir (path : HostPath) : HostOp UnixHost Unit := whole (make path newDir)

/-- A directory that could not be made may be there. -/
def orThere (path : HostPath) (x : HostOp UnixHost Unit) : HostOp UnixHost Unit := fun h =>
  match x h with
  | .ok () h' => .ok () h'
  | .error e h' => if h'.isDir path then .ok () h' else .error e h'

/-- `create_dir_all`: the directories that a path is in are made first, if need be. There
are as many as it has components. -/
def createDirAll : (fuel : Nat) → HostPath → HostOp UnixHost Unit
  | 0, _ => pure ()
  | fuel + 1, path => fun h =>
    match mkdir path h with
    | .ok () h' => .ok () h'
    | .error e h' =>
      if e.kind = .notFound then
        match createDirAll fuel path.dropLast h' with
        | .ok () h'' => orThere path (mkdir path) h''
        | .error e h'' => .error e h''
      else if h'.isDir path then .ok () h'
      else .error e h'

/-- As much of a write as was done. -/
def writePartly (path : HostPath) (d : Bytes) (n : Nat) (h : UnixHost) : UnixHost :=
  match withOpen path (fun b pos => (overwrite 0 b pos (d.take n), pos + (d.take n).length)) h with
  | .ok h' => h'
  | .error _ => h

end UnixHost

open UnixHost

def unixHost : HostFs UnixHost HostPath where
  isDir path h := .ok (path ≠ [] && h.isDir path) h
  symlinkMetadata path h :=
    match h.symlinkMetadata path with
    | .ok b => .ok b h
    | .error e => .error e h
  createDirAll path := createDirAll path.length path
  removeFile path := whole (unlink path)
  symlink _ target path := whole (make path fun _ => newLink target)
  rename source dest := whole (move source dest)
  setFileMtime path sec nsec := whole (touch path sec nsec)
  create path := do
    whole (openNew path)
    return path
  writeAll path d :=
    call (writePartly path d) (withOpen path fun b pos => (overwrite 0 b pos d, pos + d.length))
  seek path n := whole (withOpen path fun b pos => (b, pos + n))
  setLen path n := whole (withOpen path fun b pos => (resize 0 b n, pos))
  setPermissions path mode := whole (chmodOpen path mode)
  syncAll _ := whole .ok
  manifestLine line := whole fun h => .ok { h with manifest := h.manifest ++ [line] }
  manifestNewline := whole .ok

/-! ## The file that is open -/

namespace UnixHost

def fileData (t : HostTree) (n : Nat) : Bytes :=
  match t.body n with
  | some (.file b) => b
  | _ => []

/-- What is in the file that was made at a path, while it is open. -/
def openData (h : UnixHost) (path : HostPath) : Bytes :=
  match h.opened with
  | some (p, n, _) => if p = path then fileData h.files n else []
  | none => []

def openPos (h : UnixHost) (path : HostPath) : Nat :=
  match h.opened with
  | some (p, _, pos) => if p = path then pos else 0
  | none => 0

theorem whole_ok {x : UnixHost → Except OsError UnixHost} {h h' : UnixHost}
    (hrun : whole x h = .ok () h') : x { h with calls := h.calls + 1 } = .ok h' := by
  unfold whole call at hrun
  cases hf : h.faults h.calls with
  | some f => simp [hf] at hrun
  | none =>
    rw [hf] at hrun
    dsimp only at hrun
    cases hx : x { h with calls := h.calls + 1 } with
    | error e => simp [hx] at hrun
    | ok h'' =>
      rw [hx] at hrun
      cases hrun
      rfl

theorem call_ok {partly : Nat → UnixHost → UnixHost} {x : UnixHost → Except OsError UnixHost}
    {h h' : UnixHost} (hrun : call partly x h = .ok () h') :
    x { h with calls := h.calls + 1 } = .ok h' := by
  refine whole_ok ?_
  unfold whole
  unfold call at hrun ⊢
  cases hf : h.faults h.calls with
  | some f => simp [hf] at hrun
  | none =>
    rw [hf] at hrun
    exact hrun

theorem withOpen_ok {path : HostPath} {f : Bytes → Nat → Bytes × Nat} {h h' : UnixHost}
    (hrun : withOpen path f h = .ok h') : ∃ n pos b, h.opened = some (path, n, pos) ∧
      h.files.body n = some (.file b) ∧
      h' = { h.alterNode n fun v => { v with body := .file (f b pos).1 } with
        opened := some (path, n, (f b pos).2) } := by
  unfold withOpen at hrun
  cases ho : h.opened with
  | none => simp [ho] at hrun
  | some o =>
    obtain ⟨p, n, pos⟩ := o
    rw [ho] at hrun
    dsimp only at hrun
    cases hb : h.files.body n with
    | none => simp [hb] at hrun
    | some v =>
      rw [hb] at hrun
      cases v with
      | dir parent entries => cases hrun
      | link l => cases hrun
      | file b =>
        dsimp only at hrun
        split_ifs at hrun with hp
        subst hp
        exact ⟨n, pos, b, rfl, hb, (Except.ok.inj hrun).symm⟩

theorem withOpen_data {path : HostPath} {f : Bytes → Nat → Bytes × Nat} {h h' : UnixHost}
    (hrun : withOpen path f h = .ok h') :
    h'.openData path = (f (h.openData path) (h.openPos path)).1 ∧
      h'.openPos path = (f (h.openData path) (h.openPos path)).2 := by
  obtain ⟨n, pos, b, ho, hb, rfl⟩ := withOpen_ok hrun
  have hdata : h.openData path = b := by simp [openData, ho, fileData, hb]
  have hpos : h.openPos path = pos := by simp [openPos, ho]
  rw [hdata, hpos]
  have hbody := FileTree.Tree.body_alter_self hb 
    (fun v => { v with body := .file (f b pos).1 }) fun _ => rfl
  constructor
  · simp [openData, alterNode, fileData, hbody]
  · simp [openPos]

theorem chmodOpen_data {path : HostPath} {mode : Nat} {h h' : UnixHost}
    (hrun : chmodOpen path mode h = .ok h') : h'.openData path = h.openData path := by
  unfold chmodOpen at hrun
  cases ho : h.opened with
  | none => simp [ho] at hrun
  | some o =>
    obtain ⟨p, n, pos⟩ := o
    rw [ho] at hrun
    dsimp only at hrun
    split_ifs at hrun with hp
    cases hrun
    subst hp
    simp only [openData, alterNode, ho, if_true, fileData, FileTree.Tree.body,
      FileTree.Tree.node_alter]
    cases h.files.node n <;> rfl

theorem openNew_data {path : HostPath} {h h' : UnixHost} (hrun : openNew path h = .ok h') :
    h'.openData path = [] ∧ h'.openPos path = 0 := by
  unfold openNew at hrun
  cases hp : h.place path with
  | none => simp [hp] at hrun
  | some o =>
    rw [hp] at hrun
    cases o with
    | inl n =>
      dsimp only at hrun
      split_ifs at hrun with hd
      cases hrun
      refine ⟨?_, by simp [openPos]⟩
      simp only [openData, alterNode, if_true, fileData, FileTree.Tree.body, FileTree.Tree.node_alter]
      cases h.files.node n <;> rfl
    | inr e =>
      cases hrun
      refine ⟨?_, by simp [openPos]⟩
      simp only [openData, putNode, if_true, fileData]
      by_cases hn : e.1 = h.files.size
      · rw [← hn, FileTree.Tree.body_setEntry_self, FileTree.Tree.body, FileTree.Tree.node_add,
          if_pos hn]
        rfl
      · rw [FileTree.Tree.body_setEntry_of_ne _ hn, FileTree.Tree.body, FileTree.Tree.node_add,
          if_pos rfl]
        rfl

end UnixHost

/-- The file that is open reads as what is written to it. -/
theorem keepsFiles_unixHost : unixHost.KeepsFiles id openData openPos where
  create {path f h h'} hrun := by
    obtain ⟨⟨⟩, h₁, hopen, hpure⟩ := bind_ok_iff.mp hrun
    obtain ⟨rfl, rfl⟩ := EStateM.Result.ok.inj hpure
    exact ⟨rfl, openNew_data (whole_ok hopen)⟩
  writeAll hrun := withOpen_data (call_ok hrun)
  seek hrun := withOpen_data (whole_ok hrun)
  setLen hrun := (withOpen_data (whole_ok hrun)).1
  setPermissions {f mode h h'} hrun :=
    chmodOpen_data (h := { h with calls := h.calls + 1 }) (whole_ok hrun)
  syncAll {f h h'} hrun := by
    have hsame : Except.ok { h with calls := h.calls + 1 } = Except.ok h' := whole_ok hrun
    cases hsame
    rfl

end BtrfsPeek
