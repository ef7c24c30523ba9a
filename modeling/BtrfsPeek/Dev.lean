import BtrfsPeek.Error
import BtrfsPeek.Lib.Bytes
import BtrfsPeek.Lib.Effect

/-!
# Devices

`Device::read` of `dev.rs`, over any backing. A `Backing` answers each read
request with at most the bytes asked for, and interrupts only finitely often
(`patience`), which bounds the loop. `Backing.Holds` is a backing of fixed
content: each answer is a piece of it, of any length, and empty only at its
end. Then the outcome of a read is decided by the content (`read_of_holds`):
the slice, or an error where the device ends before it.
-/

namespace BtrfsPeek

open Effect

def ALIGN : Nat := 4096
def MAX_IO : Nat := 4 * 2 ^ 20

/-- What a device is read through: a file, or the helper. Its state `β` is
whatever its answers depend on. -/
structure Backing (β : Type) where
  readAt (off len : Nat) : β → Except OsError Bytes × β
  /-- At most the buffer is filled. -/
  fits {off len : Nat} {s s' : β} {b : Bytes} : readAt off len s = (.ok b, s') → b.length ≤ len
  /-- How many more requests may be interrupted. -/
  patience : β → Nat
  steady (off len : Nat) (s : β) : patience (readAt off len s).2 ≤ patience s
  interrupted {off len : Nat} {s s' : β} {e : OsError} : readAt off len s = (.error e, s') →
    e.kind = .interrupted → patience s' < patience s

structure Device (β : Type) where
  path : String
  backing : Backing β

variable {β : Type}

/-- The reads that fill a buffer of `total` bytes from `start`, of which `done`
are there. Each one fills a byte, ends the loop or was interrupted, so the
buffer's length and the patience left are fuel enough. -/
def Backing.fill (B : Backing β) (start total : Nat) :
    (fuel : Nat) → (done : Bytes) → EStateM IoError β Bytes
  | 0, done => pure done
  | fuel + 1, done => fun s =>
    if done.length < total then
      let want := min (total - done.length) MAX_IO
      match B.readAt ((start + done.length) % 2 ^ 64) want s with
      | (.ok [], s) => .ok done s
      | (.ok (x :: xs), s) => B.fill start total fuel (done ++ (x :: xs)) s
      | (.error e, s) =>
        if e.kind = .interrupted then B.fill start total fuel done s
        else .error (e.at .device) s
    else .ok done s

namespace Device

/-- Where the buffer of a read at `off` begins, and how long it is: the sums
wrap. -/
def bufStart (off : Nat) : Nat := off - off % ALIGN

def bufLen (off len : Nat) : Nat :=
  let stop := ((off + len) % 2 ^ 64 + ALIGN - 1) / ALIGN * ALIGN % 2 ^ 64
  (stop + 2 ^ 64 - bufStart off) % 2 ^ 64

/-- The requested bytes of the buffer, if it holds them. -/
def trim (d : Device β) (off len : Nat) (done : Bytes) : Except IoError Bytes :=
  let skip := off - bufStart off
  if done.length < skip + len then
    .error ⟨.unexpectedEof,
      s!"{d.path}: read of {len} bytes at offset {off} ran past the end of the device", .device⟩
  else .ok (done.slice skip len)

def read (d : Device β) (off len : Nat) : EStateM IoError β Bytes := fun s =>
  let total := bufLen off len
  (do
    let done ← d.backing.fill (bufStart off) total (total + d.backing.patience s) []
    lift (d.trim off len done)) s

theorem read_run (d : Device β) (off len : Nat) (s : β) : d.read off len s = (do
    let done ← d.backing.fill (bufStart off) (bufLen off len) (bufLen off len + d.backing.patience s) []
    lift (d.trim off len done) : EStateM IoError β Bytes) s := rfl

/-- No allocation is larger than `isize::MAX` bytes. -/
def ISIZE_MAX : Nat := 2 ^ 63 - 1

/-- How a call ends. -/
inductive Call (α : Type)
  | returned (r : Except IoError α)
  | panicked

/-- What is made of the buffer once it is filled. When `skip + len` wraps, less
is kept than is to be dropped, which panics. -/
def settle (d : Device β) (off len : Nat) : EStateM.Result IoError β Bytes → Call Bytes × β
  | .error e s => (.returned (.error e), s)
  | .ok done s =>
    let skip := off - bufStart off
    let stop := (skip + len) % 2 ^ 64
    if done.length < stop then
      (.returned (.error ⟨.unexpectedEof,
        s!"{d.path}: read of {len} bytes at offset {off} ran past the end of the device", .device⟩), s)
    else if stop < skip then (.panicked, s)
    else (.returned (.ok (done.slice skip (stop - skip))), s)

/-- `Device::read` for any length. What it does beyond `read` is to panic: on
what `settle` does, and on a buffer that is too large for a vector. -/
def readCall (d : Device β) (off len : Nat) (s : β) : Call Bytes × β :=
  let total := bufLen off len
  if total > ISIZE_MAX then (.panicked, s)
  else d.settle off len (d.backing.fill (bufStart off) total (total + d.backing.patience s) [] s)

/-- The buffer is one that a vector can hold, and the length of what is kept of
it does not wrap. -/
def Fits (off len : Nat) : Prop :=
  bufLen off len ≤ ISIZE_MAX ∧ off - bufStart off + len < 2 ^ 64

instance (off len : Nat) : Decidable (Fits off len) := inferInstanceAs (Decidable (_ ∧ _))

end Device

/-! ## A device of fixed content -/

/-- The bytes of a device. -/
structure Content where
  size : Nat
  byte : Nat → UInt8
  size_lt : size < 2 ^ 63

/-- `n` bytes from `off`. -/
def Content.read (c : Content) (off n : Nat) : Bytes := (List.range n).map fun i => c.byte (off + i)

@[simp] theorem Content.length_read (c : Content) (off n : Nat) : (c.read off n).length = n := by
  simp [read]

theorem Content.read_append (c : Content) (off m n : Nat) :
    c.read off m ++ c.read (off + m) n = c.read off (m + n) := by
  simp only [read, List.range_add, List.map_append, List.map_map]
  congr 1
  exact List.map_congr_left fun i _ => by simp [Nat.add_assoc]

theorem Content.slice_read (c : Content) {off n i len : Nat} (h : i + len ≤ n) :
    (c.read off n).slice i len = c.read (off + i) len := by
  apply List.ext_getElem?
  intro j
  by_cases hj : j < len
  · rw [Bytes.slice_getElem? hj]
    simp [read, show i + j < n by omega, hj, Nat.add_assoc]
  · rw [List.getElem?_eq_none, List.getElem?_eq_none] <;> simp [Bytes.length_slice] <;> omega

/-- The backing answers from `c`: with a piece of it, empty only where it ends,
or with an interruption. -/
def Backing.Holds (B : Backing β) (c : Content) : Prop :=
  ∀ off len s, match B.readAt off len s with
    | (.ok b, _) => b = c.read off b.length ∧ (b = [] → len = 0 ∨ c.size ≤ off) ∧
        (b ≠ [] → off + b.length ≤ c.size)
    | (.error e, _) => e.kind = .interrupted

/-- Of a backing that never interrupts. -/
theorem impatient (_ _ : Nat) (_ : Unit) : 0 ≤ 0 := Nat.le_refl 0

/-- A backing that answers every request in full. -/
def Content.backing (c : Content) : Backing Unit where
  readAt off len _ := (.ok (c.read off (min len (c.size - off))), ())
  fits h := by cases h; rw [Content.length_read]; exact Nat.min_le_left _ _
  patience _ := 0
  steady := impatient
  interrupted h := by cases h

theorem Content.holds_backing (c : Content) : c.backing.Holds c := by
  intro off len _
  simp only [backing, length_read]
  refine ⟨trivial, fun he => ?_, fun hne => ?_⟩
  · have := congrArg List.length he
    rw [length_read, List.length_nil] at this
    omega
  · have := List.length_pos_iff.mpr hne
    rw [length_read] at this
    omega

/-- Filling a buffer from a device of content `c` ends with all of it that the
device has. -/
theorem Backing.Holds.fill {B : Backing β} {c : Content} (h : B.Holds c) {start total : Nat}
    (hs : start < 2 ^ 64) : ∀ (fuel n : Nat) (s : β), n ≤ min total (c.size - start) →
    total + B.patience s ≤ fuel + n →
    ∃ s', B.fill start total fuel (c.read start n) s =
      .ok (c.read start (min total (c.size - start))) s'
  | 0, n, s, hn, hf => ⟨s, by
      rw [Backing.fill, pure_run, show min total (c.size - start) = n by omega]⟩
  | fuel + 1, n, s, hn, hf => by
    have hc := c.size_lt
    rw [Backing.fill]
    simp only [Content.length_read]
    by_cases hlt : n < total
    · rw [if_pos hlt]
      have hmod : (start + n) % 2 ^ 64 = start + n := by
        by_cases hz : n = 0
        · subst hz; exact Nat.mod_eq_of_lt hs
        · exact Nat.mod_eq_of_lt (by omega)
      rw [hmod]
      have hw : 0 < min (total - n) MAX_IO := Nat.lt_min.mpr ⟨by omega, by decide⟩
      have hh := h (start + n) (min (total - n) MAX_IO) s
      have hst := B.steady (start + n) (min (total - n) MAX_IO) s
      split
      · -- the device ends here
        rename_i s' hr
        rw [hr] at hh
        have := hh.2.1 rfl
        exact ⟨s', by rw [show min total (c.size - start) = n by omega]⟩
      · rename_i x xs s' hr
        have hfit := B.fits hr
        rw [hr] at hh hst
        obtain ⟨hb, -, hle⟩ := hh
        have hle := hle (by simp)
        rw [hb, Content.read_append]
        simp only [List.length_cons] at *
        exact h.fill hs fuel _ s' (by omega) (by omega)
      · rename_i e s' hr
        have hp := B.interrupted hr
        rw [hr] at hh hst
        rw [if_pos hh]
        have hp := hp hh
        exact h.fill hs fuel n s' hn (by omega)
    · exact ⟨s, by rw [if_neg hlt, show min total (c.size - start) = n by omega]⟩

namespace Device

/-- The buffer spans whole blocks around the request; what wraps in `bufLen`
wraps back. -/
theorem bufLen_eq {off len : Nat} (ho : off < 2 ^ 64) (hl : len < 2 ^ 63) :
    bufLen off len = (off + len + (ALIGN - 1)) / ALIGN * ALIGN - bufStart off := by
  simp only [bufLen, bufStart, ALIGN]
  omega

theorem bufLen_covers (off len : Nat) (ho : off < 2 ^ 64) (hl : len < 2 ^ 63) :
    off - bufStart off + len ≤ bufLen off len := by
  rw [bufLen_eq ho hl]
  simp only [bufStart, ALIGN]
  omega

/-- What reading a device of content `c` comes to: the bytes, or an error where
they are not all there. -/
def outcome (d : Device β) (c : Content) (off len : Nat) : Except IoError Bytes :=
  d.trim off len (c.read (bufStart off) (min (bufLen off len) (c.size - bufStart off)))

theorem read_of_holds {d : Device β} {c : Content} (h : d.backing.Holds c) {off : Nat} (len : Nat)
    (ho : off < 2 ^ 64) (s : β) : ∃ s', d.read off len s = done (d.outcome c off len) s' := by
  have hs : bufStart off < 2 ^ 64 := by simp only [bufStart]; omega
  obtain ⟨s', hf⟩ : ∃ s', d.backing.fill (bufStart off) (bufLen off len)
      (bufLen off len + d.backing.patience s) (c.read (bufStart off) 0) s =
        .ok (c.read (bufStart off) (min (bufLen off len) (c.size - bufStart off))) s' :=
    h.fill hs _ 0 s (Nat.zero_le _) (by omega)
  exact ⟨s', bind_of_ok hf⟩

/-- A read within the device returns its bytes. -/
theorem outcome_of_le (d : Device β) {c : Content} {off len : Nat} (h : off + len ≤ c.size) :
    d.outcome c off len = .ok (c.read off len) := by
  have hc := c.size_lt
  have hcov := bufLen_covers off len (by omega) (by omega)
  have hb : bufStart off ≤ off := Nat.sub_le _ _
  unfold outcome trim
  simp only [Content.length_read]
  rw [if_neg (by omega), Content.slice_read _ (by omega), Nat.add_sub_cancel' hb]

/-- A read that returns bytes is within the device. -/
theorem le_of_outcome_ok {d : Device β} {c : Content} {off len : Nat} {b : Bytes}
    (h : d.outcome c off len = .ok b) (hl : 0 < len) : off + len ≤ c.size := by
  have hb : bufStart off ≤ off := Nat.sub_le _ _
  unfold outcome trim at h
  simp only [Content.length_read] at h
  split_ifs at h
  omega

/-- What a read returns is what is there. -/
theorem outcome_ok {d : Device β} {c : Content} {off len : Nat} {b : Bytes}
    (h : d.outcome c off len = .ok b) : b = c.read off len := by
  have hb : bufStart off ≤ off := Nat.sub_le _ _
  unfold outcome trim at h
  simp only [Content.length_read] at h
  split_ifs at h with hlt
  have := Except.ok.inj h
  rw [← this, Content.slice_read _ (by omega), Nat.add_sub_cancel' hb]

/-- What is read is as long as was asked for. -/
theorem length_of_read {d : Device β} {off len : Nat} {s s' : β} {b : Bytes}
    (h : d.read off len s = .ok b s') : b.length = len := by
  obtain ⟨done, s₁, -, h⟩ := bind_ok_iff.mp h
  unfold trim at h
  dsimp only at h
  split_ifs at h with hlt
  · cases h
  · rw [← Except.ok.inj (congrArg Result.value h)]
    exact Bytes.length_slice_of_le (Nat.le_of_not_lt hlt)

/-- Lengths that no vector comes near fit. -/
theorem fits_of_lt {off len : Nat} (ho : off < 2 ^ 64) (hl : len < 2 ^ 63 - 8190) : Fits off len := by
  unfold Fits
  rw [bufLen_eq ho (by omega)]
  simp only [bufStart, ALIGN, ISIZE_MAX]
  omega

section call

variable {d : Device β} {off len : Nat}

theorem settle_ok (hw : off - bufStart off + len < 2 ^ 64) (done : Bytes) (s : β) :
    d.settle off len (.ok done s) = (.returned (d.trim off len done), s) := by
  have hmod : (off - bufStart off + len) % 2 ^ 64 = off - bufStart off + len := Nat.mod_eq_of_lt hw
  unfold settle trim
  dsimp only
  rw [hmod]
  by_cases hlt : done.length < off - bufStart off + len
  · rw [if_pos hlt, if_pos hlt]
  · rw [if_neg hlt, if_neg hlt, if_neg (Nat.not_lt.mpr (Nat.le_add_right _ _)), Nat.add_sub_cancel_left]

/-- What wraps keeps less than it is to drop. -/
theorem settle_of_wrap (hw : 2 ^ 64 ≤ off - bufStart off + len) (hlen : len < 2 ^ 64)
    (r : EStateM.Result IoError β Bytes) (b : Bytes) :
    (d.settle off len r).1 ≠ .returned (.ok b) := by
  have hskip : off - bufStart off < ALIGN := by
    rw [bufStart, ALIGN]
    omega
  have hstop : (off - bufStart off + len) % 2 ^ 64 < off - bufStart off := by
    rw [ALIGN] at hskip
    omega
  cases r with
  | error e s => nofun
  | ok done s =>
    unfold settle
    dsimp only
    rw [if_pos hstop]
    split_ifs
    · nofun
    · nofun

theorem readCall_of_le (ht : bufLen off len ≤ ISIZE_MAX) {s : β} {r : EStateM.Result IoError β Bytes}
    (h : d.backing.fill (bufStart off) (bufLen off len) (bufLen off len + d.backing.patience s) [] s =
      r) : d.readCall off len s = d.settle off len r :=
  (if_neg (Nat.not_lt.mpr ht)).trans (congrArg _ h)

/-- What fits is read by `read`. -/
theorem readCall_of_fits (h : Fits off len) (s : β) : d.readCall off len s =
    (.returned (Result.value (d.read off len s)), Result.state (d.read off len s)) := by
  cases hfill : d.backing.fill (bufStart off) (bufLen off len)
      (bufLen off len + d.backing.patience s) [] s with
  | error e s' =>
    have hread : d.read off len s = .error e s' := bind_of_error hfill
    exact (readCall_of_le h.1 hfill).trans (by rw [hread]; rfl)
  | ok b s' =>
    have hread : d.read off len s = done (d.trim off len b) s' := bind_of_ok hfill
    refine (readCall_of_le h.1 hfill).trans ?_
    rw [hread, settle_ok h.2, value_done, state_done]

/-- What does not fit returns no bytes. -/
theorem readCall_of_not_fits (h : ¬ Fits off len) (hlen : len < 2 ^ 64) (s : β) (b : Bytes) :
    (d.readCall off len s).1 ≠ .returned (.ok b) := by
  by_cases ht : bufLen off len ≤ ISIZE_MAX
  · have hw : 2 ^ 64 ≤ off - bufStart off + len := Nat.le_of_not_lt fun hw => h ⟨ht, hw⟩
    rw [readCall_of_le ht rfl]
    exact settle_of_wrap hw hlen _ b
  · rw [readCall]
    simp only [if_pos (Nat.lt_of_not_le ht)]
    nofun

end call

/-- What a read of a device of content `c` returns: the bytes asked for if they
are all on the device, and an error if not. A request whose buffer no vector can
hold returns no bytes. -/
theorem readCall_exact {d : Device β} {c : Content} (h : d.backing.Holds c) {off len : Nat}
    (ho : off < 2 ^ 64) (hpos : 1 ≤ len) (hlen : len < 2 ^ 64) (s : β) :
    (Fits off len → off + len ≤ c.size →
      (d.readCall off len s).1 = .returned (.ok (c.read off len))) ∧
    (Fits off len → c.size < off + len → ∃ e, (d.readCall off len s).1 = .returned (.error e)) ∧
    (¬ Fits off len → ∀ b, (d.readCall off len s).1 ≠ .returned (.ok b)) := by
  obtain ⟨s', hr⟩ := d.read_of_holds h len ho s
  refine ⟨fun hf hle => ?_, fun hf hlt => ?_, fun hf => readCall_of_not_fits hf hlen s⟩
  · rw [readCall_of_fits hf, hr, d.outcome_of_le hle, value_done]
  · cases hout : d.outcome c off len with
    | ok b => exact absurd (le_of_outcome_ok hout hpos) (by omega)
    | error e => exact ⟨e, by rw [readCall_of_fits hf, hr, hout, value_done]⟩

/-- A backing that gives a byte at a time, and is interrupted before each while its state says so. -/
def dripping (c : Content) : Backing Nat where
  readAt off len n :=
    if n % 2 = 1 then (.error ⟨.interrupted, "Interrupted system call (os error 4)"⟩, n - 1)
    else (.ok (c.read off (min 1 (min len (c.size - off)))), n - 1)
  fits h := by
    split_ifs at h <;> cases h
    rw [Content.length_read]
    omega
  patience n := n
  steady _ _ n := by split_ifs <;> exact Nat.sub_le n 1
  interrupted h hkind := by
    split_ifs at h <;> cases h
    omega

theorem holds_dripping (c : Content) : (dripping c).Holds c := by
  intro off len n
  by_cases hn : n % 2 = 1
  · simp only [dripping, if_pos hn]
  · simp only [dripping, if_neg hn, Content.length_read]
    refine ⟨trivial, fun he => ?_, fun hne => ?_⟩
    · have := congrArg List.length he
      rw [Content.length_read, List.length_nil] at this
      omega
    · have := List.length_pos_iff.mpr hne
      rw [Content.length_read] at this
      omega

/-- The last two bytes of a device of three, which come one by one and late, and a byte past it. -/
theorem readCall_exact_three :
    ((⟨"image", dripping ⟨3, fun p => UInt8.ofNat p, by decide⟩⟩ : Device Nat).readCall 1 2 5).1 =
      .returned (.ok [1, 2]) ∧
    ∃ e, ((⟨"image", dripping ⟨3, fun p => UInt8.ofNat p, by decide⟩⟩ : Device Nat).readCall 3 1 5).1 =
      .returned (.error e) :=
  ⟨(readCall_exact (d := ⟨"image", _⟩) (holds_dripping ⟨3, fun p => UInt8.ofNat p, by decide⟩) (by decide)
      (by decide) (by decide) 5).1 (by decide) (by decide),
    (readCall_exact (d := ⟨"image", _⟩) (holds_dripping ⟨3, fun p => UInt8.ofNat p, by decide⟩) (by decide)
      (by decide) (by decide) 5).2.1 (by decide) (by decide)⟩

/-- No vector holds half of the address space, so a read of that much panics. -/
theorem readCall_panics : ∃ (d : Device Unit) (c : Content), d.backing.Holds c ∧
    ∃ off len, off < 2 ^ 64 ∧ 1 ≤ len ∧ len < 2 ^ 64 ∧
      ∀ r s', d.readCall off len () ≠ (.returned r, s') :=
  ⟨⟨"image", (⟨3, fun p => UInt8.ofNat p, by decide⟩ : Content).backing⟩, _, Content.holds_backing _,
    0, 2 ^ 63, by decide, by decide, by decide, fun r s' => nofun⟩

end Device

end BtrfsPeek
