import BtrfsPeek.Fs.Plan
import Mathlib.Data.List.TakeWhile

/-!
# Parts of a file

A read of a part of a file, beside a read of all of it. Each takes a byte from
where its plan has it, so the part is a slice of the whole if and only if the
places that the two plans have for a byte of the range hold the same
(`partial_read_is_slice_iff`).

The two plans have the same places but for what `Paint.shade_slice` asks of the
extents, as one of them starts later and ends earlier, and what their bytes are
read with: the copies of an address, which each read tries block by block from
its own start, and the cache of decompressed extents (`Sliceable`).
-/

namespace BtrfsPeek

open Effect Paint

variable {β : Type}

namespace Fs

/-- One of the extents describes the compressed extent at `addr`. -/
def DescribedBy (exts : List Extent) (addr : Nat) (d : Description) : Prop :=
  ∃ e ∈ exts, e.Describes addr d

/-- The extents of a file of `size` bytes are such that `[start, stop)` reads as
that part of the whole. -/
structure Sliceable (fs : Fs β) (s₀ : FsState β) (B : Nat → UInt8) (start stop size : Nat)
    (exts : List Extent) : Prop where
  /-- Those that name one address describe one extent. -/
  alike : ∀ addr d d', DescribedBy exts addr d → DescribedBy exts addr d' → d = d'
  /-- Their uncompressed bytes do not depend on where a block begins. -/
  agreed : ∀ e ∈ exts, ∀ a n off, e.kind = .regular a n off → a ≠ 0 → e.compression = 0 →
    fs.Agreed B (a + off) (a + off + e.len)
  /-- No inline one holds more than it declares across `start`, and no empty one
  stands before one that is wanted. -/
  clear : Clear start stop size 0 (exts.map (fs.patch s₀ B))

variable {fs : Fs β} {s₀ : FsState β} {B : Nat → UInt8} {start stop size : Nat}
  {exts : List Extent} {loc : Loc} {i : Inode}

theorem Sliceable.drawable (h : fs.Sliceable s₀ B start stop size exts) (hfs : fs.Honest)
    {e : Extent} (he : e ∈ exts) :
    fs.Drawable s₀ B (fs.LastOk s₀ (DescribedBy exts)) True e where
  inline _ _ := .inr trivial
  plain a n off hk ha hc := ⟨.inr trivial, fun _ _ h₁ h₂ h₃ h₄ =>
    readLogical_of_agreed hfs (fun _ _ h => h) (h.agreed e he a n off hk ha hc) h₁ h₂ h₃ h₄⟩
  compressed _ n off hk ha hc := ⟨compressedExtent_gives (d := ⟨n, e.compression, e.ramBytes⟩) hfs
    h.alike ⟨e, he, off, hk, ha, hc, rfl, rfl⟩ fun _ _ => trivial, .inl trivial⟩

/-- A state with nothing decompressed in it. -/
def Undecompressed (s : FsState β) : Prop := s.lastExtent = none

theorem layout_same (hfs : fs.Honest) (loc : Loc) : Alike (Same Undecompressed) (fs.layout loc) := by
  have hnode := readNode_same (P := Undecompressed) hfs (fun _ _ h => h) (fun _ _ _ h _ => h)
  exact layout_alike hnode (tree_same hnode fun _ _ h => h) loc

/-- What a read on a filesystem with nothing decompressed comes to. -/
theorem readBytes_of_undecompressed {s : FsState β} {b : Bytes} (hfs : fs.Honest)
    (hlay : Result.value (fs.layout loc s) = .ok (i, exts)) (hs : Undecompressed s)
    (hd : ∀ e ∈ wanted i.size exts,
      fs.Drawable s₀ B (fs.LastOk s₀ (DescribedBy (wanted i.size exts))) True e) (start stop : Nat)
    (hb : Result.value (fs.readBytes loc start stop s) = .ok b) :
    b = window (shade 0 (min stop i.size) ((wanted i.size exts).map (fs.patch s₀ B)) start)
      start (min stop i.size) := by
  have hkept := (layout_same hfs loc s s ⟨rfl, rfl, rfl, hs⟩).2.holds
  cases hl : fs.layout loc s with
  | error e s₁ => rw [hl] at hlay; cases hlay
  | ok r s₁ =>
    rw [hl] at hlay hkept
    cases hlay
    have hlast : fs.LastOk s₀ (DescribedBy (wanted i.size exts)) s₁ := fun addr data h => by
      rw [show s₁.lastExtent = none from hkept] at h
      cases h
    have h := readBytes_gives hl hlast start stop fun e he => (hd e he).draws
    cases hr : fs.readBytes loc start stop s with
    | error e s₂ => rw [hr] at hb; cases hb
    | ok c s₂ =>
      rw [hr] at hb h
      cases hb
      exact h.2

theorem size_lt {s : FsState β} (h : Result.value (fs.inode loc s) = .ok i) : i.size < 2 ^ 64 := by
  cases hr : fs.inode loc s with
  | error e s' => rw [hr] at h; cases h
  | ok j s' =>
    rw [hr] at h
    cases h
    unfold inode at hr
    split_ifs at hr
    · cases hr; decide
    · obtain ⟨r, s₁, -, hr⟩ := bind_ok_iff.mp hr
      obtain ⟨item, s₂, -, hr⟩ := bind_ok_iff.mp hr
      cases item with
      | none => cases hr
      | some item =>
        have hr : lift (Inode.parse item) s₂ = .ok i s' := hr
        cases hp : Inode.parse item with
        | error e => rw [hp] at hr; cases hr
        | ok j => rw [hp] at hr; cases hr; exact Inode.size_lt hp

theorem size_lt_of_layout {s : FsState β} (h : Result.value (fs.layout loc s) = .ok (i, exts)) :
    i.size < 2 ^ 64 := by
  cases hl : fs.layout loc s with
  | error e s₁ => rw [hl] at h; cases h
  | ok r s₁ =>
    rw [hl] at h
    cases h
    obtain ⟨j, s₂, hi, hl⟩ := bind_ok_iff.mp hl
    obtain ⟨es, s₃, -, hl⟩ := bind_ok_iff.mp hl
    cases hl
    exact size_lt (s := s) (by rw [hi]; rfl)

/-- A read that ends where it starts, or before, returns nothing. -/
theorem readBytes_of_le {s : FsState β} {b : Bytes} {stop : Nat}
    (hlay : Result.value (fs.layout loc s) = .ok (i, exts)) (h : min stop i.size ≤ start)
    (hb : Result.value (fs.readBytes loc start stop s) = .ok b) : b = [] := by
  cases hl : fs.layout loc s with
  | error e s₁ => rw [hl] at hlay; cases hlay
  | ok r s₁ =>
    rw [hl] at hlay
    cases hlay
    have hfst : onFst (fs.layout loc) (s, ([] : Bytes)) = .ok (i, exts) (s₁, []) := by
      simp only [onFst, hl, Result.value_ok, Result.state_ok, done_ok]
    have hrun : fs.readRange loc start stop collect (s, []) =
        fs.emitFile collect (min stop i.size) exts start (s₁, []) := bind_of_ok hfst
    have hexts : fs.emitExtents collect (min stop i.size) exts start = pure start := by
      cases exts with
      | nil => rfl
      | cons e exts => rw [emitExtents, if_pos (.inl h)]
    have hnone : emit (β := β) collect (min stop i.size) start (min stop i.size) start none =
        pure start := by
      rw [emit, if_pos (by omega)]
    have hfile : fs.emitFile collect (min stop i.size) exts start (s₁, []) = .ok () (s₁, []) := by
      rw [emitFile, hexts, pure_bind, hnone]
      rfl
    simp only [readBytes, bind_run, withLocal, hrun, hfile] at hb
    cases hb
    rfl

/-- Opening the same devices again gives the same filesystem, with the same files
on it and nothing decompressed. -/
theorem reopened {p : Platform} {X : Crates} {opener : Opener β} (hop : SteadyOpener opener)
    {paths : List String} {dev dev' : β} {fs fs' : Fs β} {s₀ s₀' : FsState β}
    (hopen : Fs.open p X opener paths (.empty dev) = .ok fs s₀)
    (hopen' : Fs.open p X opener paths (.empty dev') = .ok fs' s₀')
    (hlay : Result.value (fs.layout loc s₀) = .ok (i, exts)) :
    fs = fs' ∧ Undecompressed s₀ ∧ Undecompressed s₀' ∧
      Result.value (fs.layout loc s₀') = .ok (i, exts) := by
  have hfs := Fs.honest_of_open hop hopen
  have hfresh : Same Fresh (.empty dev : FsState β) (.empty dev') :=
    ⟨rfl, rfl, rfl, List.nodup_nil, rfl, rfl⟩
  obtain ⟨hv, hs⟩ := Fs.open_alike hop paths _ _ hfresh
  rw [hopen, hopen'] at hv hs
  refine ⟨Except.ok.inj hv, hs.holds.last, hs.last.symm.trans hs.holds.last, ?_⟩
  rw [← (Fs.layout_same hfs loc s₀ s₀' ⟨hs.nodes, hs.roots, hs.last, hs.holds.last⟩).1, hlay]

theorem fileOff_lt_of_mem_wanted {e : Extent} (h : e ∈ wanted size exts) : e.fileOff < size := by
  simpa using List.mem_takeWhile_imp h

/-- Each byte of `[start, stop)` of a file of `size` bytes is read from a place that holds
what the place does from which a read of the whole file takes it. -/
def SamePlaces (fs : Fs β) (s₀ : FsState β) (exts : List Extent) (start stop size : Nat) : Prop :=
  ∀ p, start ≤ p → p < stop →
    fs.holds s₀ (placeAt (fs.plan stop none exts start) p) =
      fs.holds s₀ (placeAt (fs.plan size none exts 0) p)

/-- What a read that succeeds returns on a filesystem with nothing decompressed. -/
theorem readBytes_eq_window {s : FsState β} {b : Bytes} (hfs : fs.Honest) (s₀ : FsState β)
    (hlay : Result.value (fs.layout loc s) = .ok (i, exts)) (hs : Undecompressed s)
    (hb : Result.value (fs.readBytes loc start stop s) = .ok b) :
    b = window (fs.byteAt s₀ (fs.plan (min stop i.size) none exts start)) start
      (max start (min stop i.size)) := by
  cases hl : fs.layout loc s with
  | error err s₁ => rw [hl] at hlay; cases hlay
  | ok r s₁ =>
    rw [hl] at hlay
    cases hlay
    obtain ⟨s', hrun⟩ := readRange_run hfs s₀ start stop hl
    rw [show Known.of s.lastExtent = none from congrArg Known.of hs] at hrun
    cases hread : fs.readRange loc start stop collect (s, []) with
    | error err t =>
      simp only [readBytes, bind_run, withLocal, hread] at hb
      cases hb
    | ok _ t =>
      simp only [readBytes, bind_run, withLocal, hread] at hb
      cases hb
      obtain ⟨ps, hkeep, hall⟩ := fs.readRange_follows collect loc start stop s [] () t.1 t.2 hread
      have hrun := hrun.symm.trans (hkeep [])
      have hok := congrArg Result.value hrun
      have hps := congrArg (fun r => (Result.state r).2) hrun
      rw [value_done] at hok
      simp only [state_done, Result.state_ok, List.nil_append] at hps
      have hblocks : ∀ e src q n,
          .block e src q n ∈ fs.plan (min stop i.size) none exts start →
            fs.IsBlock (min stop i.size) e src q n := fun _ _ _ _ h => (mem_plan h).1
      rw [collect_all hall, ← hps]
      exact all_played (laid_plan exts none start) hblocks hok

end Fs

namespace Image

/-- An image of one file of three bytes, all in one inline extent that declares
`ramBytes`. -/
def oneInline (ramBytes : Nat) : Spans :=
  image [(⟨ROOT_DIR, INODE_ITEM_KEY, 0⟩, inodeItem 0 0o40755),
    (⟨257, INODE_ITEM_KEY, 0⟩, inodeItem 3 0o100644),
    (⟨257, EXTENT_DATA_KEY, 0⟩, inlineExtent ramBytes 0 [1, 2, 3])] []

end Image

/-- A read of a part of a file returns that part of what a read of all of it
returns, each on the filesystem opened afresh: where the extents that the whole
read comes to are `Sliceable`. -/
theorem slice_of_sliceable {p : Platform} {X : Crates} {opener : Opener β}
    (hop : SteadyOpener opener) {paths : List String} {dev dev' : β} {fs fs' : Fs β}
    {s₀ s₀' : FsState β} (hopen : Fs.open p X opener paths (.empty dev) = .ok fs s₀)
    (hopen' : Fs.open p X opener paths (.empty dev') = .ok fs' s₀') {loc : Loc} {start stop : Nat}
    {i : Inode} {exts : List Extent} (hlay : Result.value (fs.layout loc s₀) = .ok (i, exts))
    (hslice : start < min stop i.size →
      ∃ B, fs.Sliceable s₀ B start (min stop i.size) i.size (Fs.wanted i.size exts))
    {whole part : Bytes} (hwhole : Result.value (fs.readBytes loc 0 U64_MAX s₀) = .ok whole)
    (hpart : Result.value (fs'.readBytes loc start stop s₀') = .ok part) :
    part = (whole.drop start).take (min stop i.size - start) := by
  have hfs := Fs.honest_of_open hop hopen
  obtain ⟨rfl, hs, hs', hlay'⟩ := Fs.reopened hop hopen hopen' hlay
  by_cases hlt : start < min stop i.size
  · obtain ⟨B, h⟩ := hslice hlt
    have hd : ∀ e ∈ Fs.wanted i.size exts, _ := fun e he => h.drawable hfs he
    have hsize : i.size < 2 ^ 64 := Fs.size_lt_of_layout hlay
    have hw := Fs.readBytes_of_undecompressed hfs hlay hs hd 0 U64_MAX hwhole
    have hp := Fs.readBytes_of_undecompressed hfs hlay' hs' hd start stop hpart
    rw [show min U64_MAX i.size = i.size by rw [U64_MAX]; omega] at hw
    rw [hw, hp]
    refine Eq.trans ?_ (window_part _ (Nat.zero_le start) (Nat.min_le_right stop i.size)).symm
    refine window_congr fun q hq hq' => ?_
    have hord : ∀ x ∈ (Fs.wanted i.size exts).map (fs.patch s₀ B), x.lo ≤ x.declared := by
      intro x hx
      obtain ⟨e, he, rfl⟩ := List.mem_map.mp hx
      have := Fs.fileOff_lt_of_mem_wanted he
      simp only [Fs.patch, satAdd, U64_MAX]
      omega
    have hshade : shade (0 : UInt8) (min stop i.size) _ (max 0 start) q = shade 0 i.size _ 0 q :=
      shade_slice (Nat.min_le_right stop i.size) hq hq' hord h.clear le_rfl (Nat.zero_le q)
    rwa [Nat.zero_max] at hshade
  · rw [Nat.sub_eq_zero_of_le (by omega), List.take_zero]
    exact Fs.readBytes_of_le hlay' (by omega) hpart

end BtrfsPeek
