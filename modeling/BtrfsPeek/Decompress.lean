import BtrfsPeek.Disk
import BtrfsPeek.Lib.Effect

/-!
# The three compression formats

`decompress.rs`: `decode` for a regular or an inline extent, over the decoders
in `Crates`. A stream is read one byte past the most it may decode to (`stream`),
LZO is unframed segment by segment (`lzo`), and `finish` settles what was
decoded with what the extent declares. Whatever the codec, what comes back has
exactly the declared length (`length_decode`).
-/

namespace BtrfsPeek

open Effect

def MAX_RAM_BYTES : Nat := 2 ^ 30

/-- What an extent may decode to. -/
structure Size where
  /-- What it declares. -/
  ramBytes : Nat
  /-- The most it may decode to: `ramBytes`, or for an inline extent the end of
  its sector. -/
  most : Nat
  sectorsize : Nat

/-- Settles up between what was decoded and what the extent declared: a
shortfall of less than a sector is padding, any other difference is an error. -/
def finish (out : Bytes) (size : Size) (what : String) : Except Error Bytes :=
  if out.length > size.most then
    let past := if size.most > size.ramBytes then
      s!", past the end of its {size.sectorsize}-byte sector" else ""
    .error (.msg s!"{what} extent decodes to more than the {size.ramBytes} bytes it declares{past}; it is corrupt")
  else
    let out := out.take size.ramBytes
    let shortBy := size.ramBytes - out.length
    if shortBy ≥ size.sectorsize then
      .error (.msg s!"{what} extent decodes to {out.length} bytes but declares {size.ramBytes}, short by {shortBy} which is more than the {size.sectorsize}-byte sector padding; it is truncated or corrupt")
    else .ok (out ++ List.replicate shortBy 0)

/-- Reads one byte past what the extent may decode to: if it arrives, the data
does not match the metadata. What the decoder would do after it is not seen. -/
def stream (d : Decoding) (src : Bytes) (size : Size) (what : String) : Except Error Bytes :=
  match d.failure with
  | some text =>
    if d.data.length < size.most + 1 then
      .error (.context s!"{what} extent ({src.length} compressed bytes)"
        (.io ⟨.invalidData, text, .device⟩))
    else finish (d.data.take (size.most + 1)) size what
  | none => finish (d.data.take (size.most + 1)) size what

variable (X : Crates)

/-- A four-byte length of the LZO frame. -/
def lzoLE32 (src : Bytes) (off : Nat) : Except Error Nat :=
  if off + 4 ≤ src.length then .ok (Bytes.ofLE (src.slice off 4))
  else .error (.msg s!"lzo extent: truncated header at offset {off}")

/-- The segment at `pos`, decoded. -/
def lzoSegment (src : Bytes) (size : Size) (pos segLen : Nat) : Except Error Bytes :=
  match X.lzo (src.slice pos segLen) size.sectorsize with
  | .panicked => .error (.msg s!"lzo extent: segment at offset {pos} is malformed")
  | .failed e => .error (.msg s!"lzo extent at offset {pos}: {e}")
  | .plain plain =>
    if plain.length > size.sectorsize then
      .error (.msg s!"lzo extent: segment at offset {pos} expands to {plain.length} bytes, past the {size.sectorsize}-byte sector")
    else .ok plain

/-- The segments from `pos` on, after `out`. Each step moves `pos` on, so the
frame's length is fuel enough. -/
def lzoSegments (src : Bytes) (size : Size) (total : Nat) :
    (fuel pos : Nat) → (out : Bytes) → Except Error Bytes
  | 0, _, out => .ok out
  | fuel + 1, pos, out =>
    if pos < total ∧ out.length < size.ramBytes then
      let leftInSector := size.sectorsize - pos % size.sectorsize
      -- A segment header never straddles a sector boundary.
      let pos := if leftInSector < 4 then pos + leftInSector else pos
      if pos ≥ total then .ok out
      else do
        let segLen ← lzoLE32 src pos
        let pos := pos + 4
        bailIf (segLen = 0 ∨ pos + segLen > total)
          (.msg s!"lzo extent: segment of {segLen} bytes at offset {pos} overruns the frame")
        let plain ← lzoSegment X src size pos segLen
        lzoSegments src size total fuel (pos + segLen) (out ++ plain)
    else .ok out

def lzo (src : Bytes) (size : Size) : Except Error Bytes := do
  let total ← lzoLE32 src 0
  bailIf (total < 4 ∨ total > src.length)
    (.msg s!"lzo extent: frame declares {total} bytes but the extent holds {src.length}")
  let out ← lzoSegments X src size total total 4 []
  finish out size "lzo"

/-- `usize::next_multiple_of`. -/
def nextMultipleOf (n m : Nat) : Nat := (n + m - 1) / m * m

def decode (algo : Nat) (src : Bytes) (ramBytes sectorsize : Nat) (inline : Bool) :
    Except Error Bytes := do
  bailIf (ramBytes > MAX_RAM_BYTES)
    (.msg s!"extent claims {ramBytes} bytes decompressed, which no btrfs extent can be")
  bailIf (sectorsize = 0) (.msg "sectorsize is zero")
  let most := if inline then nextMultipleOf ramBytes sectorsize else ramBytes
  let size : Size := { ramBytes, most, sectorsize }
  match algo with
  | 1 => stream (X.zlib src) src size "zlib"
  | 2 => lzo X src size
  | 3 =>
    match X.zstd src with
    | .error e => throw (.msg s!"zstd extent: {e}")
    | .ok dec => stream dec src size "zstd"
  | n => throw (.msg s!"unknown compression type {n}")

def decompress (algo : Nat) (src : Bytes) (ramBytes sectorsize : Nat) : Except Error Bytes :=
  decode X algo src ramBytes sectorsize false

/-- An inline extent may decode up to the end of its sector; the rest is
dropped. -/
def decompressInline (algo : Nat) (src : Bytes) (ramBytes sectorsize : Nat) : Except Error Bytes :=
  decode X algo src ramBytes sectorsize true

theorem length_finish {out v : Bytes} {size : Size} {what : String}
    (h : finish out size what = .ok v) : v.length = size.ramBytes := by
  unfold finish at h
  simp only at h
  split_ifs at h
  have := Except.ok.inj h
  rw [← this]
  simp

theorem length_stream {d : Decoding} {src v : Bytes} {size : Size} {what : String}
    (h : stream d src size what = .ok v) : v.length = size.ramBytes := by
  unfold stream at h
  split at h
  · split_ifs at h
    exact length_finish h
  · exact length_finish h

theorem length_lzo {src v : Bytes} {size : Size} (h : lzo X src size = .ok v) :
    v.length = size.ramBytes := by
  obtain ⟨total, -, h⟩ := except_bind_ok.mp h
  obtain ⟨_, -, h⟩ := except_bind_ok.mp h
  obtain ⟨out, -, h⟩ := except_bind_ok.mp h
  exact length_finish h

/-- What an extent decodes to has the length it declares. -/
theorem length_decode {algo ramBytes sectorsize : Nat} {src v : Bytes} {inline : Bool}
    (h : decode X algo src ramBytes sectorsize inline = .ok v) : v.length = ramBytes := by
  obtain ⟨_, -, h⟩ := except_bind_ok.mp h
  obtain ⟨_, -, h⟩ := except_bind_ok.mp h
  simp only at h
  split at h
  · exact length_stream h
  · exact length_lzo X h
  · split at h
    · cases h
    · exact length_stream h
  · cases h

end BtrfsPeek
