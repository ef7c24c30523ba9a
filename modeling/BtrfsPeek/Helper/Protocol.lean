import BtrfsPeek.Error
import BtrfsPeek.Helper.Update
import BtrfsPeek.Lib.Process

/-!
# The helper's protocol

The two ends of the protocol, from `helper.rs`: `serve` is `serve_client`, and
`Session.start`, `Session.open`, `Session.readAt` and `Session.update` are the
client. Both are processes on byte streams.

A read or write that was interrupted is made again where it is made: by
`read_byte`, and by the standard library's `read_exact` and `write_all`. It is a
step of its own of a run (`Process.Step`) and nothing a process sees.
-/

namespace BtrfsPeek.Helper

open Process

def PROTOCOL : UInt8 := 1
def VERSION : String := "0.3.2"

def OPEN : UInt8 := 1
def READ : UInt8 := 2
def UPDATE : UInt8 := 3

def OK : UInt8 := 0
def NOT_FOUND : UInt8 := 1
def REFUSED : UInt8 := 2
def ERROR : UInt8 := 3

def MAX_PATH : Nat := 1024
def MAX_READ : Nat := 4 * 2 ^ 20
def MAX_MESSAGE : Nat := 64 * 2 ^ 10

/-- `str::as_bytes`. -/
def utf8 (s : String) : Bytes := Utf8.toUtf8 s.toList

/-- `String::from_utf8_lossy`. -/
def lossy (b : Bytes) : String := String.ofList (Utf8.fromUtf8Lossy b)

/-- `String::from_utf8`. -/
def fromUtf8 (b : Bytes) : Option String := (Utf8.fromUtf8 b).map String.ofList

theorem lossy_utf8 (s : String) : lossy (utf8 s) = s := by
  rw [lossy, utf8, Utf8.fromUtf8Lossy_toUtf8, String.ofList_toList]

theorem fromUtf8_utf8 (s : String) : fromUtf8 (utf8 s) = some s := by
  rw [fromUtf8, utf8, Utf8.fromUtf8_toUtf8, Option.map_some, String.ofList_toList]

/-- Why the server would not open a path. -/
inductive Refusal
  | notFound (m : String)
  | refused (m : String)
  | failed (m : String)
  deriving DecidableEq

def Refusal.status : Refusal → UInt8
  | notFound _ => NOT_FOUND
  | refused _ => REFUSED
  | failed _ => ERROR

def Refusal.message : Refusal → String
  | notFound m | refused m | failed m => m

/-- What the server has done for it: `open` and `update`, and the reads of the
file that `open` gave. -/
inductive Ask (F : Type)
  | open (path : String)
  | readAt (f : F) (off len : Nat)
  | update

/-- A read fills its buffer or less of it. -/
def Answer {F : Type} : Ask F → Type
  | .open _ => Except Refusal F
  | .readAt _ _ len => Except IoError { b : Bytes // b.length ≤ len }
  | .update => Except IoError Update

/-- How a client's session ended. -/
inductive Ended
  | closed
  /-- An UPDATE installed a new build. -/
  | updated
  deriving DecidableEq

/-- Where `serve_client` is: before the handshake, or in its loop with the file
that is open. -/
inductive Phase (F : Type)
  | greeting
  | serving (file : Option F)

abbrev Server (F : Type) := Process (Ask F) (@Answer F) IoError

variable {F : Type}

/-- What `read_exact` fails with where the stream ends. -/
def shortRead : IoError := ⟨.unexpectedEof, "failed to fill whole buffer", .device⟩

section streams

variable {κ : Type} {A : κ → Type}

def readU32 : Process κ A IoError Nat := do
  let b ← readExact shortRead 4
  pure (Bytes.ofLE b)

def readU64 : Process κ A IoError Nat := do
  let b ← readExact shortRead 8
  pure (Bytes.ofLE b)

/-- A reply; of its length 32 bits are sent. -/
def message (status : UInt8) (payload : Bytes) : Bytes :=
  status :: (Bytes.toLE 4 payload.length ++ payload)

def respond (status : UInt8) (payload : Bytes) : Process κ A IoError Unit :=
  writeAll (message status payload)

end streams

/-! ## The server -/

/-- The handshake of `serve_client`, and one round of its loop. -/
def serve : Phase F → Server F (Phase F ⊕ Ended)
  | .greeting => do
    match ← readByte with
    | none => pure (.inr .closed)
    | some proto =>
      if proto ≠ PROTOCOL then do
        respond ERROR (utf8 s!"this helper speaks protocol {PROTOCOL}, the client {proto}: install the helper again with the same btrfs-peek")
        pure (.inr .closed)
      else do
        respond OK (utf8 VERSION)
        pure (.inl (.serving none))
  | .serving file => do
    match ← readByte with
    | none => pure (.inr .closed)
    | some op =>
      if op = OPEN then do
        let len ← readU32
        if len > MAX_PATH then do
          respond ERROR (utf8 s!"path longer than {MAX_PATH} bytes")
          pure (.inr .closed)
        else do
          let path ← readExact shortRead len
          if file.isSome then do
            respond ERROR (utf8 "a device is already open on this connection")
            pure (.inl (.serving file))
          else
            match fromUtf8 path with
            | none => do
              respond ERROR (utf8 "the path is not UTF-8")
              pure (.inl (.serving file))
            | some path => do
              let answer : Except Refusal F ← ask (Ask.open path)
              match answer with
              | .ok f => do
                respond OK []
                pure (.inl (.serving (some f)))
              | .error r => do
                respond r.status (utf8 r.message)
                pure (.inl (.serving file))
      else if op = READ then do
        let off ← readU64
        let len ← readU32
        if len > MAX_READ then do
          respond ERROR (utf8 s!"reads are at most {MAX_READ} bytes")
          pure (.inl (.serving file))
        else
          match file with
          | none => do
            respond ERROR (utf8 "READ before OPEN")
            pure (.inl (.serving file))
          | some f => do
            let answer : Except IoError { b : Bytes // b.length ≤ len } ← ask (Ask.readAt f off len)
            match answer with
            | .ok data => do
              writeAll (OK :: Bytes.toLE 4 data.1.length)
              writeAll data.1
              pure (.inl (.serving file))
            | .error e => do
              respond ERROR (utf8 e.text)
              pure (.inl (.serving file))
      else if op = UPDATE then do
        let answer : Except IoError Update ← ask Ask.update
        match answer with
        | .ok u => do
          respond OK (utf8 u.text)
          match u with
          | .installed _ => pure (.inr .updated)
          | .upToDate _ => pure (.inl (.serving file))
        | .error e => do
          respond ERROR (utf8 e.text)
          pure (.inl (.serving file))
      else do
        respond ERROR (utf8 s!"unknown operation {op}")
        pure (.inr .closed)

/-! ## The client -/

/-- A client makes no calls. -/
abbrev Client := Process Empty (fun _ => Unit) IoError

def statusError (status : UInt8) (msg : String) : IoError :=
  if status = NOT_FOUND then ⟨.notFound, msg, .device⟩
  else if status = REFUSED then ⟨.invalidData, s!"the helper refused: {msg}", .device⟩
  else if status = ERROR then ⟨.other, msg, .device⟩
  else ⟨.invalidData, s!"the helper sent an unknown status {status}", .device⟩

namespace Session

/-- A reply's status and length. -/
def header : Client (UInt8 × Nat) := do
  let h ← readExact shortRead 5
  pure (h.getD 0 0, Bytes.ofLE (h.slice 1 4))

def message (n : Nat) : Client String :=
  if n > MAX_MESSAGE then
    fail ⟨.invalidData, s!"the helper sent a {n}-byte message", .device⟩
  else do
    let b ← readExact shortRead n
    pure (lossy b)

/-- A short reply: its payload if OK, else the error it carries. -/
def reply : Client Bytes := do
  let (status, n) ← header
  let msg ← message n
  if status ≠ OK then fail (statusError status msg)
  else pure (utf8 msg)

/-- Handshakes; returns the server's version. -/
def start : Client String := do
  writeAll [PROTOCOL]
  let version ← reply
  pure (lossy version)

def «open» (path : String) : Client Unit :=
  if (utf8 path).length > MAX_PATH then
    fail ⟨.invalidInput, s!"path longer than {MAX_PATH} bytes", .device⟩
  else do
    writeAll (OPEN :: (Bytes.toLE 4 (utf8 path).length ++ utf8 path))
    let _ ← reply
    pure ()

/-- Into a buffer of `size` bytes; returns what was read into it. -/
def readAt (size off : Nat) : Client Bytes := do
  let len := min size MAX_READ
  writeAll (READ :: (Bytes.toLE 8 off ++ Bytes.toLE 4 len))
  let (status, n) ← header
  if status ≠ OK then do
    let msg ← message n
    fail (statusError status msg)
  else if n > len then
    fail ⟨.invalidData, s!"the helper sent {n} bytes for a read of {len}", .device⟩
  else readExact shortRead n

/-- Asks the service to update itself; its reply, and the version it installed
if it did. -/
def update (version : String) : Client (String × Option Version) := do
  writeAll [UPDATE]
  match ← reply.attempt with
  | .ok r =>
    let text := lossy r
    pure (text, installedVersion text)
  | .error e =>
    if e.text = s!"unknown operation {UPDATE}" then
      fail ⟨.other, s!"this helper ({version}) predates self-update; run `btrfs-peek helper install` from an elevated terminal once more", .device⟩
    else fail e

end Session

end BtrfsPeek.Helper
