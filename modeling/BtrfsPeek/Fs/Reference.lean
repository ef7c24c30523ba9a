import BtrfsPeek.Fs.Later
import BtrfsPeek.Fs.Mirrors
import BtrfsPeek.Fs.Slice

/-!
# The content of a file

What a file whose extents are well formed (`FileOk`) holds is told without reading it: at
each place the byte of the extent that covers it, and zero where none does (`reference`).
A range read returns that, whatever was read before it (`readBytes_eq_reference`). The
bytes on the devices enter as `B`, a byte for each logical address, where all copies of an
extent hold them (`Stored`); what is cached, by what was asked for before (`Asked`).
-/

namespace BtrfsPeek

open Effect Paint

variable {β : Type}

/-- The extent is over the place `p` of its file. -/
def Extent.Covers (e : Extent) (p : Nat) : Prop := e.fileOff ≤ p ∧ p < e.fileOff + e.len

instance (e : Extent) (p : Nat) : Decidable (e.Covers p) := inferInstanceAs (Decidable (_ ∧ _))

namespace Fs

section reference

variable (fs : Fs β) (B : Nat → UInt8)

/-- The `n` bytes at `a` are in the chunk, which can be read, and every copy of them on the
devices given holds what `B` has there. -/
structure StoredIn (c : Chunk) (a n : Nat) : Prop where
  within : ∀ p, a ≤ p → p < a + max n 1 → fs.chunkAt p = some c
  ends : a + n ≤ c.start + c.length
  fits : c.start + c.length < 2 ^ 64
  mapped : ¬ (c.has striped ∧ c.stripes.length > 1)
  given : fs.copies c a ≠ []
  holds : ∀ m ∈ fs.copies c a, ∃ d, m.1.backing.Holds d ∧ m.2 + n ≤ d.size ∧
    ∀ i < n, d.byte (m.2 + i) = B (a + i)

def Stored (a n : Nat) : Prop := ∃ c, fs.StoredIn B c a n

/-- What the extent at `a` decompresses to. -/
def plainAt (a : Nat) (d : Description) : Except Error Bytes :=
  decompress fs.crates d.compression (window B a (a + d.diskNumBytes)) d.ramBytes fs.sb.sectorsize

/-- The payload of an inline extent, decompressed. -/
def inlinePlain (e : Extent) (raw : Bytes) : Except Error Bytes :=
  if e.compression = 0 then .ok raw
  else decompressInline fs.crates e.compression raw e.ramBytes fs.sb.sectorsize

/-- The byte `q` into what the extent is of the file. -/
def byteIn (e : Extent) (q : Nat) : UInt8 :=
  match e.kind with
  | .prealloc => 0
  | .inline raw =>
    match fs.inlinePlain e raw with
    | .ok plain => plain.getD q 0
    | .error _ => 0
  | .regular a n off =>
    if a = 0 then 0
    else if e.compression = 0 then B (a + off + q)
    else match fs.plainAt B a ⟨n, e.compression, e.ramBytes⟩ with
      | .ok plain => plain.getD (off + q) 0
      | .error _ => 0

/-- What a file of these extents holds at `p`. -/
def reference (exts : List Extent) (p : Nat) : UInt8 :=
  match exts.find? (·.Covers p) with
  | some e => fs.byteIn B e (p - e.fileOff)
  | none => 0

variable (D : Nat → Description → Prop)

/-- An extent item is well formed, on a filesystem whose compressed extents are as `D`
describes them. -/
structure ExtentOk (e : Extent) : Prop where
  fits : e.fileOff + e.len ≤ 2 ^ 63
  inline : ∀ raw, e.kind = .inline raw → e.ramBytes ≤ fs.sb.nodesize ∧
    ∃ plain, fs.inlinePlain e raw = .ok plain ∧ plain.length = e.ramBytes
  plain : ∀ a n off, e.kind = .regular a n off → a ≠ 0 → e.compression = 0 →
    off + e.len ≤ n ∧ fs.Stored B a n
  compressed : ∀ a n off, e.kind = .regular a n off → a ≠ 0 → e.compression ≠ 0 →
    D a ⟨n, e.compression, e.ramBytes⟩ ∧ off + e.len ≤ e.ramBytes ∧ e.ramBytes ≤ 2 ^ 30 ∧
    fs.Stored B a n ∧ ∃ plain, fs.plainAt B a ⟨n, e.compression, e.ramBytes⟩ = .ok plain

/-- The extent items of a file are well formed, in order, and over no place together. -/
structure FileOk (exts : List Extent) : Prop where
  extents : ∀ e ∈ exts, fs.ExtentOk B D e
  ascending : exts.Pairwise fun e e' => e.fileOff ≤ e'.fileOff
  disjoint : exts.Pairwise fun e e' => ∀ p, ¬ (e.Covers p ∧ e'.Covers p)

/-- A state that reading leads to from one with nothing decompressed, where compressed
extents were asked for as `D` describes them. -/
inductive Asked : FsState β → Prop
  | start {s : FsState β} : Undecompressed s → Asked s
  | device {s : FsState β} (dev : β) : Asked s → Asked { s with dev := dev }
  | node {s : FsState β} (p : Nat) : Asked s → Asked (Result.state (fs.readNode p s))
  | tree {s : FsState β} (id : Nat) : Asked s → Asked (Result.state (fs.tree id s))
  | extent {s : FsState β} {addr : Nat} {d : Description} : D addr d → Asked s → Asked
    (Result.state (fs.compressedExtent addr d.diskNumBytes d.compression d.ramBytes s))

end reference

variable {fs : Fs β} {B : Nat → UInt8} {D : Nat → Description → Prop} {I : FsState β → Prop}
  {E : Prop} {c : Chunk} {a n k m : Nat}

/-! ## What is stored -/

namespace StoredIn

variable (h : fs.StoredIn B c a n)

include h

theorem start_le : c.start ≤ a := start_le_of_chunkAt (h.within a le_rfl (by omega))

/-- The copies of a place further in are that much further on. -/
theorem copies_add (hk : k ≤ n) : fs.copies c (a + k) = (fs.copies c a).map fun m => (m.1, m.2 + k) := by
  have hstart := h.start_le
  have hfits := h.fits
  have hends := h.ends
  rw [copies, copies, List.map_filterMap]
  refine List.filterMap_congr fun x hx => ?_
  obtain ⟨id, phys⟩ := x
  dsimp only
  cases hd : fs.devs.lookup id with
  | none => rfl
  | some d =>
    have hmem : (d, wadd phys (a - c.start)) ∈ fs.copies c a :=
      List.mem_filterMap.mpr ⟨(id, phys), hx, by simp only [hd, Option.map_some]⟩
    obtain ⟨content, -, hsize, -⟩ := h.holds _ hmem
    have hlt := content.size_lt
    simp only [wadd] at hsize ⊢
    simp only [Option.map_some, Option.some.injEq, Prod.mk.injEq, true_and]
    omega

theorem mirrors_eq (hk : k < max n 1) (hm : k + m ≤ n) :
    fs.mirrors (a + k) m = .ok (fs.copies c (a + k)) := by
  have hfits := h.fits
  have hends := h.ends
  have hgiven : fs.copies c (a + k) ≠ [] := by
    rw [h.copies_add (by omega)]
    simpa using h.given
  have hin : wadd (a + k) m ≤ wadd c.start c.length := by
    rw [wadd_of_lt (by omega), wadd_of_lt hfits]
    omega
  rw [mirrors, h.within (a + k) (by omega) (by omega), Option.filter_some,
    if_pos (by simpa using hin)]
  simp only [if_neg h.mapped, if_neg hgiven]

/-- A block within what is stored is read right. -/
theorem readLogical_gives (hI : ∀ s dev, I s → I { s with dev := dev }) (hk : k < max n 1)
    (hm : k + m ≤ n) : Gives I E (fs.readLogical (a + k) m) fun b => b = window B (a + k) (a + k + m) := by
  have hmirrors := h.mirrors_eq hk hm
  cases hc : fs.copies c a with
  | nil => exact absurd hc h.given
  | cons x ms =>
    obtain ⟨d, phys⟩ := x
    rw [h.copies_add (by omega), hc, List.map_cons] at hmirrors
    obtain ⟨content, hholds, hsize, hbytes⟩ := h.holds (d, phys) (by rw [hc]; exact List.mem_cons_self)
    refine readLogical_of_first hI hmirrors hholds (by dsimp only at hsize ⊢; omega) fun i hi => ?_
    have := hbytes (k + i) (by omega)
    simpa only [Nat.add_assoc] using this

end StoredIn

/-- What is stored of a compressed extent decompresses as it should, or `E` allows a
failure. -/
theorem decompressExtent_gives (hI : ∀ s dev, I s → I { s with dev := dev }) {d : Description}
    (h : fs.Stored B a d.diskNumBytes) (hbig : d.ramBytes > 2 ^ 30 ∨ d.diskNumBytes > 2 ^ 30 → E)
    (hE : ∀ e, fs.plainAt B a d = .error e → E) :
    Gives I E (fs.decompressExtent a d.diskNumBytes d.compression d.ramBytes)
      (fun plain => fs.plainAt B a d = .ok plain) := by
  obtain ⟨c, h⟩ := h
  have hread : Gives I E (fs.readLogical a d.diskNumBytes) _ :=
    h.readLogical_gives (k := 0) hI (by omega) (by omega)
  refine Ensures.bind (Q := fun _ => I) (.lift (fun _ _ _ hs => hs) fun e he s _ => ?_) fun _ => ?_
  · by_contra hno
    rw [bailIf, if_neg fun h => hno (hbig h)] at he
    cases he
  · refine hread.bind fun raw => .lift (fun plain hp s hs => ⟨?_, hs.2⟩) fun e he s hs => hE e ?_
    · show fs.plainAt B a d = .ok plain
      rw [plainAt, ← hp, hs.1, Nat.add_zero]
    · rw [plainAt, ← he, hs.1, Nat.add_zero]

theorem decompressed_eq_plainAt {d : Description} (h : fs.Stored B a d.diskNumBytes)
    (hram : d.ramBytes ≤ 2 ^ 30) (hdisk : d.diskNumBytes ≤ 2 ^ 30) {plain : Bytes}
    (hp : fs.plainAt B a d = .ok plain) (s : FsState β) : fs.decompressed s a d = .ok plain := by
  have hg : Gives (fun _ => True) False _ _ := decompressExtent_gives (fun _ _ h => h) h (by omega)
    fun e he => by rw [hp] at he; cases he
  have := hg s trivial
  unfold decompressed
  cases hx : fs.decompressExtent a d.diskNumBytes d.compression d.ramBytes s with
  | error e s' =>
    rw [hx] at this
    exact this.elim
  | ok b s' =>
    rw [hx] at this
    rw [← hp, this.1]
    rfl

/-! ## What is cached -/

/-- The decompressed extent is what is stored of it, as `D` describes it. -/
def CacheRight (fs : Fs β) (B : Nat → UInt8) (D : Nat → Description → Prop) (s : FsState β) : Prop :=
  ∀ addr data, s.lastExtent = some (addr, data) → ∀ d, D addr d → fs.Stored B addr d.diskNumBytes →
    fs.plainAt B addr d = .ok data

theorem ofLast_cacheRight : OfLast (fs.CacheRight B D) := fun _ _ h hs addr data hl =>
  hs addr data (h.trans hl)

/-- What `x` comes to is what is stored of the extent; it fails only where that cannot be
decompressed. -/
abbrev ComesRight (fs : Fs β) (B : Nat → UInt8) (D : Nat → Description → Prop) (a : Nat)
    (d : Description) (x : FsM β Bytes) : Prop :=
  Ensures (fs.CacheRight B D) x
    (fun plain s => (fs.Stored B a d.diskNumBytes → fs.plainAt B a d = .ok plain) ∧ fs.CacheRight B D s)
    fun _ s => (fs.Stored B a d.diskNumBytes → d.ramBytes ≤ 2 ^ 30 → d.diskNumBytes ≤ 2 ^ 30 →
      ∃ e, fs.plainAt B a d = .error e) ∧ fs.CacheRight B D s

theorem decompressExtent_right (a : Nat) (d : Description) :
    fs.ComesRight B D a d (fs.decompressExtent a d.diskNumBytes d.compression d.ramBytes) := by
  have hdev : ∀ s dev, fs.CacheRight B D s → fs.CacheRight B D { s with dev := dev } :=
    fun s dev h => ofLast_cacheRight s _ rfl h
  have hkeeps : Keeps (fs.CacheRight B D) (fs.decompressExtent a d.diskNumBytes d.compression d.ramBytes) :=
    (Keeps.lift _).bind fun _ => (readLogical_keeps hdev _ _).bind fun _ => .lift _
  have hgives (hst : fs.Stored B a d.diskNumBytes) : Gives (fs.CacheRight B D)
      (d.ramBytes ≤ 2 ^ 30 → d.diskNumBytes ≤ 2 ^ 30 → ∃ e, fs.plainAt B a d = .error e) _ _ :=
    decompressExtent_gives hdev hst (by omega) fun e he _ _ => ⟨e, he⟩
  exact .of_outcomes (fun s plain s' hs hx => ⟨fun hst => ((hgives hst).ok hs hx).1, hkeeps.ok hs hx⟩)
    fun s e s' hs hx => ⟨fun hst => (hgives hst).error hs hx, hkeeps.error hs hx⟩

/-- A compressed extent that `D` describes comes to what is stored of it, cached or not. -/
theorem compressedExtent_right (hD : ∀ addr d d', D addr d → D addr d' → d = d') {d : Description}
    (hd : D a d) :
    fs.ComesRight B D a d (fs.compressedExtent a d.diskNumBytes d.compression d.ramBytes) := by
  refine Ensures.bind (Ensures.get (Q := fun s t => s = t ∧ fs.CacheRight B D t) fun _ h => ⟨rfl, h⟩)
    fun s => ?_
  cases hc : cachedExtent a s with
  | some data =>
    refine .pure fun t ht => ?_
    obtain ⟨rfl, ht⟩ := ht
    refine ⟨fun hst => ht a data ?_ d hd hst, ht⟩
    unfold cachedExtent at hc
    split at hc
    · rename_i addr data' hl
      split_ifs at hc with ha
      rw [hl, ha, Option.some.inj hc]
    · cases hc
  | none =>
    refine Ensures.bind ((decompressExtent_right a d).mono (fun _ h => h.2) (fun _ _ h => h)
      fun _ _ h => h) fun plain => ?_
    refine Ensures.bind (Q := fun _ s => (fs.Stored B a d.diskNumBytes → fs.plainAt B a d = .ok plain) ∧
      fs.CacheRight B D s) (.modify fun s hs => ⟨hs.1, ?_⟩) fun _ => .pure fun _ h => h
    -- What is cached now is this extent, which `D` describes in one way.
    intro addr data hl d' hd' hst
    simp only [Option.some.injEq, Prod.mk.injEq] at hl
    obtain ⟨rfl, rfl⟩ := hl
    obtain rfl := hD _ _ _ hd hd'
    exact hs.1 hst

theorem Asked.cacheRight (hD : ∀ addr d d', D addr d → D addr d' → d = d') {s : FsState β}
    (h : fs.Asked D s) : fs.CacheRight B D s := by
  induction h with
  | start h => intro addr data hl; rw [show _ = none from h] at hl; cases hl
  | device dev _ ih => exact ofLast_cacheRight _ _ rfl ih
  | node p _ ih => exact (readNode_last ofLast_cacheRight p).state ih
  | tree id _ ih => exact (tree_last ofLast_cacheRight id).state ih
  | @extent s addr d hd _ ih =>
    exact ((compressedExtent_right hD hd).mono (fun _ h => h) (fun _ _ h => h.2) fun _ _ h => h.2).state ih

/-! ## What is parsed -/

/-- An inline extent is as long as what it declares of itself. -/
theorem len_of_parse {fileOff : Nat} {b : Bytes} {e : Extent} (h : Extent.parse fileOff b = .ok e)
    {raw : Bytes} (hk : e.kind = .inline raw) : e.len = e.ramBytes := by
  obtain ⟨ramBytes, -, h⟩ := except_bind_ok.mp h
  obtain ⟨compression, -, h⟩ := except_bind_ok.mp h
  obtain ⟨encryption, -, h⟩ := except_bind_ok.mp h
  obtain ⟨_, -, h⟩ := except_bind_ok.mp h
  obtain ⟨ty, -, h⟩ := except_bind_ok.mp h
  split at h
  · obtain ⟨_, -, h⟩ := except_bind_ok.mp h
    cases h
    rfl
  · obtain ⟨_, -, h⟩ := except_bind_ok.mp h
    obtain ⟨_, -, h⟩ := except_bind_ok.mp h
    obtain ⟨_, -, h⟩ := except_bind_ok.mp h
    obtain ⟨_, -, h⟩ := except_bind_ok.mp h
    cases h
    cases hk
  · obtain ⟨_, -, h⟩ := except_bind_ok.mp h
    cases h
    cases hk
  · cases h

theorem len_of_layout {s s₁ : FsState β} {loc : Loc} {i : Inode} {exts : List Extent}
    (h : fs.layout loc s = .ok (i, exts) s₁) {e : Extent} (he : e ∈ exts) {raw : Bytes}
    (hk : e.kind = .inline raw) : e.len = e.ramBytes := by
  obtain ⟨_, s₂, -, h⟩ := bind_ok_iff.mp h
  obtain ⟨exts', s₃, hexts, h⟩ := bind_ok_iff.mp h
  cases h
  obtain ⟨r, s₄, -, hexts⟩ := bind_ok_iff.mp hexts
  obtain ⟨out, s₅, hwalk, hexts⟩ := bind_ok_iff.mp hexts
  cases hexts
  refine walk_keeps (P := fun out => ∀ e ∈ out, ∀ raw, e.kind = .inline raw → e.len = e.ramBytes)
    ?_ (fun e he => absurd he List.not_mem_nil) hwalk e he raw hk
  intro k d out r hout hv
  obtain ⟨e', hp, hv⟩ := except_bind_ok.mp hv
  cases hv
  intro e he raw hk
  rcases List.mem_append.mp he with he | he
  · exact hout e he raw hk
  · rw [List.mem_singleton.mp he] at hk ⊢
    exact len_of_parse hp hk

/-! ## The extents as patches -/

/-- No compressed extent takes more of the disk than is read of one. -/
def Plausible (exts : List Extent) : Prop :=
  ∀ e ∈ exts, ∀ a n off, e.kind = .regular a n off → a ≠ 0 → e.compression ≠ 0 → n ≤ 2 ^ 30

section extents

variable (hD : ∀ addr d d', D addr d → D addr d' → d = d') {e : Extent} (h : fs.ExtentOk B D e)
  (hn : ∀ a n off, e.kind = .regular a n off → a ≠ 0 → e.compression ≠ 0 → n ≤ 2 ^ 30)

include h

theorem ExtentOk.inlineData {raw : Bytes} (hk : e.kind = .inline raw) :
    ∃ plain, fs.inlineData e raw = .ok plain ∧ fs.inlinePlain e raw = .ok plain ∧
      plain.length = e.ramBytes := by
  obtain ⟨hram, plain, hp, hl⟩ := h.inline raw hk
  refine ⟨plain, ?_, hp, hl⟩
  rw [← hp, Fs.inlineData, bailIf, if_neg (by omega)]
  rfl

include hD hn in
/-- A well-formed extent is read right. -/
theorem ExtentOk.drawable (s : FsState β) : fs.Drawable s B (fs.Asked D) False e where
  inline raw hk := .inl (by
    obtain ⟨plain, hp, -⟩ := h.inlineData hk
    exact ⟨plain, hp⟩)
  plain a n off hk ha hc := by
    obtain ⟨hin, c, hst⟩ := h.plain a n off hk ha hc
    have hends := hst.ends
    have hfits := hst.fits
    refine ⟨.inl (by omega), fun addr m hlo hm _ hhi => ?_⟩
    obtain ⟨k, rfl⟩ : ∃ k, addr = a + k := ⟨addr - a, by omega⟩
    exact hst.readLogical_gives (fun _ dev hs => .device dev hs) (by omega) (by omega)
  compressed a n off hk ha hc := by
    obtain ⟨hd, hin, hram, hst, plain, hp⟩ := h.compressed a n off hk ha hc
    have hdec := decompressed_eq_plainAt hst hram (hn a n off hk ha hc) hp s
    refine ⟨.of_outcomes (fun t plain' t' ht hx => ?_) fun t e' t' ht hx => ?_, .inr fun plain' hp' => ?_⟩
    · have hright := ((compressedExtent_right hD hd).ok (ht.cacheRight hD) hx).1 hst
      have hstate := Asked.extent hd ht
      rw [hx] at hstate
      exact ⟨by rw [hdec, ← hp, hright], hstate⟩
    · obtain ⟨e, he⟩ := ((compressedExtent_right hD hd).error (ht.cacheRight hD) hx).1 hst hram
        (hn a n off hk ha hc)
      rw [hp] at he
      cases he
    · rw [hdec] at hp'
      cases hp'
      have hlen : plain.length = e.ramBytes := length_decode fs.crates hp
      exact ⟨by omega, by omega⟩

/-- A well-formed extent ends where it says. -/
theorem ExtentOk.ends (hl : ∀ raw, e.kind = .inline raw → e.len = e.ramBytes) :
    fs.extentEnd e = e.fileOff + e.len ∧ satAdd e.fileOff e.len = e.fileOff + e.len := by
  have hfits := h.fits
  have hsat : satAdd e.fileOff e.len = e.fileOff + e.len := by simp only [satAdd, U64_MAX]; omega
  refine ⟨?_, hsat⟩
  cases hk : e.kind with
  | prealloc => simp only [extentEnd, hk, hsat]
  | regular a n off => simp only [extentEnd, hk, hsat]
  | inline raw =>
    obtain ⟨plain, hp, -, hlen⟩ := h.inlineData hk
    have := hl raw hk
    simp only [extentEnd, hk, hp, wadd]
    omega

include hn in
theorem ExtentOk.val (s : FsState β) {p : Nat} (hp : e.Covers p) :
    fs.extentByte s B e p = fs.byteIn B e (p - e.fileOff) := by
  obtain ⟨hlo, hhi⟩ := hp
  cases hk : e.kind with
  | prealloc => simp only [extentByte, byteIn, hk]
  | inline raw =>
    obtain ⟨plain, hd, hp, -⟩ := h.inlineData hk
    simp only [extentByte, byteIn, hk, hd, hp]
  | regular a n off =>
    simp only [extentByte, byteIn, hk]
    split_ifs with ha hc
    · rfl
    · rfl
    · obtain ⟨-, hin, hram, hst, plain, hp⟩ := h.compressed a n off hk ha hc
      have hdec := decompressed_eq_plainAt hst hram (hn a n off hk ha hc) hp s
      rw [hdec, hp, wadd_of_lt (by omega)]

end extents

section file

variable {e : Extent} {exts : List Extent} {size p : Nat}

theorem reference_cons_of_covers (h : e.Covers p) :
    fs.reference B (e :: exts) p = fs.byteIn B e (p - e.fileOff) := by
  rw [reference, List.find?_cons_of_pos (by simpa using h)]

theorem reference_cons_of_not (h : ¬ e.Covers p) :
    fs.reference B (e :: exts) p = fs.reference B exts p := by
  rw [reference, reference, List.find?_cons_of_neg (by simpa using h)]

theorem reference_before (h : ∀ e ∈ exts, p < e.fileOff) : fs.reference B exts p = 0 := by
  rw [reference, List.find?_eq_none.mpr]
  intro e he
  have hnot : ¬ e.Covers p := fun hcov => absurd (h e he) (Nat.not_lt.mpr hcov.1)
  simpa using hnot

theorem FileOk.tail (h : fs.FileOk B D (e :: exts)) : fs.FileOk B D exts :=
  ⟨fun e' he => h.extents e' (List.mem_cons_of_mem _ he), h.ascending.of_cons, h.disjoint.of_cons⟩

/-- Before the end of the file, the extents that are wanted cover what all of them do. -/
theorem cover_eq_reference (hp : p < size) (s : FsState β) : ∀ {exts : List Extent},
    fs.FileOk B D exts → Plausible exts → (∀ e ∈ exts, ∀ raw, e.kind = .inline raw → e.len = e.ramBytes) →
      cover 0 ((wanted size exts).map (fs.patch s B)) p = fs.reference B exts p
  | [], _, _, _ => rfl
  | e :: exts, h, hn, hl => by
    have he := h.extents e List.mem_cons_self
    have hends := (he.ends (hl e List.mem_cons_self)).1
    have ih := cover_eq_reference hp s h.tail (fun x hx => hn x (List.mem_cons_of_mem _ hx))
      fun x hx => hl x (List.mem_cons_of_mem _ hx)
    by_cases hlt : e.fileOff < size
    · rw [wanted, List.takeWhile_cons_of_pos (by simpa using hlt), List.map_cons]
      by_cases hcov : e.Covers p
      · rw [reference_cons_of_covers hcov, cover_cons_of_mem (by simp only [patch, hends]; exact hcov)]
        exact he.val (hn e List.mem_cons_self) s hcov
      · rw [reference_cons_of_not hcov, cover_cons_of_not (by simp only [patch, hends]; exact hcov)]
        exact ih
    · rw [wanted, List.takeWhile_cons_of_neg (by simpa using hlt), reference_before]
      · rfl
      · intro x hx
        rcases List.mem_cons.mp hx with rfl | hx
        · omega
        · have := (List.pairwise_cons.mp h.ascending).1 x hx
          omega

theorem FileOk.apart (h : fs.FileOk B D exts)
    (hl : ∀ e ∈ exts, ∀ raw, e.kind = .inline raw → e.len = e.ramBytes) (s : FsState β) :
    (exts.map (fs.patch s B)).Pairwise Apart := by
  rw [List.pairwise_map]
  refine (h.ascending.and h.disjoint).imp_of_mem fun {x y} hx hy hxy => ⟨hxy.1, fun p hlo hhi hcov => ?_⟩
  have hendx := ((h.extents x hx).ends (hl x hx)).1
  have hendy := ((h.extents y hy).ends (hl y hy)).1
  simp only [patch, hendx, hendy] at hlo hhi hcov
  exact hxy.2 p ⟨⟨hlo, hhi⟩, hcov⟩

end file

end Fs

/-- A range read of a well-formed file returns what the file holds there, up to its end,
whatever was read before. -/
theorem readBytes_eq_reference {fs : Fs β} {B : Nat → UInt8} {D : Nat → Description → Prop}
    (hD : ∀ addr d d', D addr d → D addr d' → d = d') {s s₁ : FsState β} (hs : fs.Asked D s) {loc : Loc}
    {i : Inode} {exts : List Extent} (hlay : fs.layout loc s = .ok (i, exts) s₁)
    (hok : fs.FileOk B D exts) (hn : Fs.Plausible exts) (start stop : Nat) :
    ∃ s', fs.readBytes loc start stop s =
      .ok (window (fs.reference B exts) start (min stop i.size)) s' ∧ fs.Asked D s' := by
  have hl : ∀ e ∈ exts, ∀ raw, e.kind = .inline raw → e.len = e.ramBytes := fun e he raw hk =>
    Fs.len_of_layout hlay he hk
  have hsub : (Fs.wanted i.size exts).Sublist exts := List.takeWhile_sublist _
  have hasked : fs.Asked D s₁ := by
    have hnode : ∀ p, Alike _ (fs.readNode p) := fun p =>
      alike_of_keeps (Ensures.of_state (T := fs.Asked D) fun _ h => .node p h)
    have htree : ∀ id, Alike _ (fs.tree id) := fun id =>
      alike_of_keeps (Ensures.of_state (T := fs.Asked D) fun _ h => .tree id h)
    exact (keeps_of_alike (Fs.layout_alike hnode htree loc)).ok hs hlay
  have hdraws : ∀ e ∈ Fs.wanted i.size exts, fs.Draws s B (fs.Asked D) False e := fun e he =>
    ((hok.extents e (hsub.subset he)).drawable hD (hn e (hsub.subset he)) s).draws
  have hread := Fs.readBytes_gives hlay hasked start stop hdraws
  cases hx : fs.readBytes loc start stop s with
  | error e s' =>
    rw [hx] at hread
    exact hread.elim
  | ok b s' =>
    rw [hx] at hread
    obtain ⟨hs', rfl⟩ := hread
    refine ⟨s', ?_, hs'⟩
    congr 1
    refine window_congr fun p hlo hhi => ?_
    rw [shade_of_apart hhi ?_ ((hok.apart hl s).sublist (hsub.map _)) hlo]
    · exact Fs.cover_eq_reference (by omega) s hok hn hl
    · intro x hx
      obtain ⟨e, he, rfl⟩ := List.mem_map.mp hx
      obtain ⟨hend, hsat⟩ := (hok.extents e (hsub.subset he)).ends (hl e (hsub.subset he))
      exact ⟨hsat.trans hend.symm, by simp only [Fs.patch, hend]; omega⟩

namespace Image

/-- All of a device is stored, where one chunk maps each address to itself. -/
theorem stored_of_whole {fs : Fs Unit} {s : Spans} {size a n : Nat} (hsize : size < 2 ^ 63)
    (hchunks : fs.chunks = [⟨0, size, 0, [(1, 0)]⟩])
    (hdevs : fs.devs = [(1, ⟨"image", s.backing size⟩)]) (h : a + n ≤ size) : fs.Stored s.byte a n := by
  have haddr : wadd 0 a = a := by simp only [wadd]; omega
  have hcopies : fs.copies ⟨0, size, 0, [(1, 0)]⟩ a = [(⟨"image", s.backing size⟩, a)] := by
    simp [Fs.copies, hdevs, List.lookup_cons, haddr]
  refine ⟨⟨0, size, 0, [(1, 0)]⟩, fun p _ _ => ?_, ?_, ?_, fun h => absurd h.2 (by simp), ?_, fun m hm => ?_⟩
  · simp [Fs.chunkAt, hchunks]
  · simpa using h
  · show 0 + size < 2 ^ 64
    omega
  · simp [hcopies]
  · rw [hcopies] at hm
    cases List.mem_singleton.mp hm
    exact ⟨_, s.holds_backing size hsize, h, fun _ _ => rfl⟩

/-- An image of one file of one byte, in a compressed extent that takes more than a GiB of
the disk. -/
def oversized : Spans :=
  image [(⟨ROOT_DIR, INODE_ITEM_KEY, 0⟩, inodeItem 0 0o40755),
    (⟨257, INODE_ITEM_KEY, 0⟩, inodeItem 1 0o100644),
    (⟨257, EXTENT_DATA_KEY, 0⟩, regularExtent 1 1 DATA (2 ^ 30 + 1) 0 1)] storedByte

/-- A decoder that, as zlib's does, stops where its stream ends. -/
def stopping : Crates :=
  { crates with
    zlib := fun b => if storedByte.isPrefixOf b then ⟨[0x61], none⟩ else ⟨[], some "corrupt deflate stream"⟩ }

def oversizedFs : Fs Unit :=
  { fs oversized with
    crates := stopping
    devs := [(1, ⟨"image", oversized.backing (2 ^ 40)⟩)]
    chunks := [⟨0, 2 ^ 40, 0, [(1, 0)]⟩]
    ascending := List.pairwise_singleton _ _ }

theorem plainAt_oversized : oversizedFs.plainAt oversized.byte DATA ⟨2 ^ 30 + 1, 1, 1⟩ = .ok [0x61] := by
  have hprefix : storedByte.isPrefixOf (window oversized.byte DATA (DATA + (2 ^ 30 + 1))) = true := by
    have hstored : window oversized.byte DATA (DATA + 12) = storedByte := by decide +kernel
    rw [List.isPrefixOf_iff_prefix, ← window_append _ (show DATA ≤ DATA + 12 by omega) (by omega), hstored]
    exact List.prefix_append _ _
  rw [Fs.plainAt]
  generalize window oversized.byte DATA (DATA + (2 ^ 30 + 1)) = src at hprefix ⊢
  have hzlib : oversizedFs.crates.zlib src = ⟨[0x61], none⟩ := if_pos hprefix
  simp only [decompress, decode]
  rw [hzlib]
  rfl

/-- An image of one file of six bytes: two in an extent, one in a compressed one after a
gap, and none after it. -/
def patchwork : Spans :=
  image [(⟨ROOT_DIR, INODE_ITEM_KEY, 0⟩, inodeItem 0 0o40755),
    (⟨257, INODE_ITEM_KEY, 0⟩, inodeItem 6 0o100644),
    (⟨257, EXTENT_DATA_KEY, 0⟩, regularExtent 2 0 DATA 2 0 2),
    (⟨257, EXTENT_DATA_KEY, 3⟩, regularExtent 1 1 (DATA + 2) 12 0 1)] ([7, 9] ++ storedByte)

end Image

open Image in
/-- The whole of a file of two extents, with a gap between them and one after. -/
theorem readBytes_eq_reference_patchwork : ∃ s',
    (fs patchwork).readBytes FILE 0 U64_MAX (.empty ()) = .ok (window ((fs patchwork).reference patchwork.byte
      [⟨0, 2, 2, 0, .regular DATA 2 0⟩, ⟨3, 1, 1, 1, .regular (DATA + 2) 12 0⟩]) 0 6) s' := by
  let D : Nat → Description → Prop := fun addr d => addr = DATA + 2 ∧ d = ⟨12, 1, 1⟩
  have hlay : ∃ s₁, (fs patchwork).layout FILE (.empty ()) = .ok (⟨6, 0, 0, 0, 0o100644, 0, 0⟩,
      [⟨0, 2, 2, 0, .regular DATA 2 0⟩, ⟨3, 1, 1, 1, .regular (DATA + 2) 12 0⟩]) s₁ := by
    have h : Result.passes (fun r _ => decide (r = (⟨6, 0, 0, 0, 0o100644, 0, 0⟩,
        [⟨0, 2, 2, 0, .regular DATA 2 0⟩, ⟨3, 1, 1, 1, .regular (DATA + 2) 12 0⟩])))
        ((fs patchwork).layout FILE (.empty ())) = true := by
      decide +kernel
    obtain ⟨r, s₁, hr, hd⟩ := Result.exists_of_passes h
    exact ⟨s₁, by rw [hr, of_decide_eq_true hd]⟩
  have hstored {a n : Nat} (h : a + n ≤ SIZE) : (fs patchwork).Stored patchwork.byte a n :=
    stored_of_whole (by decide) rfl rfl h
  have hplain : (fs patchwork).plainAt patchwork.byte (DATA + 2) ⟨12, 1, 1⟩ = .ok [0x61] := by
    decide +kernel
  have h₁ : (fs patchwork).ExtentOk patchwork.byte D ⟨0, 2, 2, 0, .regular DATA 2 0⟩ := by
    refine ⟨by decide, nofun, ?_, fun _ _ _ _ _ hc => absurd rfl hc⟩
    rintro _ _ _ ⟨⟩ - -
    exact ⟨by decide, hstored (by decide)⟩
  have h₂ : (fs patchwork).ExtentOk patchwork.byte D ⟨3, 1, 1, 1, .regular (DATA + 2) 12 0⟩ := by
    refine ⟨by decide, nofun, fun _ _ _ _ _ hc => absurd hc (by decide), ?_⟩
    rintro _ _ _ ⟨⟩ - -
    exact ⟨⟨rfl, rfl⟩, by decide, by decide, hstored (by decide), _, hplain⟩
  have hplausible : Fs.Plausible [⟨0, 2, 2, 0, .regular DATA 2 0⟩, ⟨3, 1, 1, 1, .regular (DATA + 2) 12 0⟩] := by
    intro e he a n off hk _ _
    simp only [List.mem_cons, List.not_mem_nil, or_false] at he
    rcases he with rfl | rfl
    · cases hk; decide
    · cases hk; decide
  obtain ⟨s₁, hlay⟩ := hlay
  obtain ⟨s', hs', -⟩ := readBytes_eq_reference (D := D) (B := patchwork.byte)
    (by rintro addr d d' ⟨-, rfl⟩ ⟨-, rfl⟩; rfl) (.start (s := .empty ()) rfl) hlay
    ⟨by simp [h₁, h₂], by decide, by simp [Extent.Covers]; omega⟩ hplausible 0 U64_MAX
  exact ⟨s', hs'⟩

open Image in
/-- The extent is well formed, and can be decompressed, but is not read. -/
theorem readBytes_ne_reference_oversized : ∃ (s₁ : FsState Unit) (i : Inode) (exts : List Extent)
    (D : Nat → Description → Prop), (∀ addr d d', D addr d → D addr d' → d = d') ∧
    oversizedFs.Asked D (.empty ()) ∧ oversizedFs.layout FILE (.empty ()) = .ok (i, exts) s₁ ∧
    oversizedFs.FileOk oversized.byte D exts ∧
    ∀ b s', oversizedFs.readBytes FILE 0 U64_MAX (.empty ()) ≠ .ok b s' := by
  let D : Nat → Description → Prop := fun addr d => addr = DATA ∧ d = ⟨2 ^ 30 + 1, 1, 1⟩
  have h : Result.passes (fun r _ => decide (r = (⟨1, 0, 0, 0, 0o100644, 0, 0⟩,
      [⟨0, 1, 1, 1, .regular DATA (2 ^ 30 + 1) 0⟩])))
      (oversizedFs.layout FILE (.empty ())) = true := by
    decide +kernel
  have herr : (Result.value (oversizedFs.readBytes FILE 0 U64_MAX (.empty ()))).toOption = none := by
    decide +kernel
  obtain ⟨r, s₁, hr, hd⟩ := Result.exists_of_passes h
  rw [of_decide_eq_true hd] at hr
  refine ⟨s₁, _, _, D, by rintro addr d d' ⟨-, rfl⟩ ⟨-, rfl⟩; rfl, .start rfl, hr, ⟨?_, ?_, ?_⟩, ?_⟩
  · refine List.forall_mem_singleton.mpr ⟨by decide, nofun, fun _ _ _ _ _ hc => absurd hc (by decide), ?_⟩
    rintro _ _ _ ⟨⟩ - -
    exact ⟨⟨rfl, rfl⟩, by decide, by decide, stored_of_whole (by decide) rfl rfl (by decide), _,
      plainAt_oversized⟩
  · exact List.pairwise_singleton _ _
  · exact List.pairwise_singleton _ _
  · intro b s' hb
    rw [hb] at herr
    cases herr

end BtrfsPeek
