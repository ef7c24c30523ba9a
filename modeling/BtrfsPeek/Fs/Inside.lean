import BtrfsPeek.Fs.Plan

/-!
# Where the bytes of an extent are from

A range read asks for the bytes of an extent block by block. `FromInside` says
that a block is from within the extent it is of, as that is on the devices. An
uncompressed extent is not checked to end where its data does, and the sums that
go into a decompressed one wrap; `readRangeChecked` is the range read with the
latter checked. A range read stays inside its extents, and needs no such check,
where the steps of its plan that are reached are `Inside` them, and nowhere else
(`readRange_inside_iff`).
-/

namespace BtrfsPeek

open Effect

variable {β τ : Type}

/-! ## The checked read -/

/-- The cutter of a build that checks its sums, where an overflow panics. -/
def checking : Cutter := fun plain offset i n =>
  match checkedAdd offset i with
  | none => .error (.msg "attempt to add with overflow")
  | some s =>
    match checkedAdd s n with
    | none => .error (.msg "attempt to add with overflow")
    | some e =>
      if e ≤ plain.length then .ok (plain.slice s n)
      else .error (.msg "extent reference outside its decompressed data")

/-- `readCompressed` in a build that checks its sums. -/
def readChecked (plain : Bytes) (offset lo : Nat) : Reader β := fun pos n =>
  lift (checking plain offset (pos - lo) n)

namespace Fs

variable (fs : Fs β)

/-- `emitExtent` in a build that checks the sums of a regular extent. -/
def emitExtentChecked (sink : Sink τ) (stop : Nat) (ext : Extent) (pos : Nat) :
    EStateM Error (FsState β × τ) Nat :=
  match ext.kind with
  | .regular diskBytenr diskNumBytes offset =>
    if diskBytenr = 0 ∨ ext.compression = 0 then fs.emitExtent sink stop ext pos
    else do
      let plain ← onFst (fs.compressedExtent diskBytenr diskNumBytes ext.compression ext.ramBytes)
      emit sink stop ext.fileOff (satAdd ext.fileOff ext.len) pos
        (some (readChecked plain offset ext.fileOff))
  | _ => fs.emitExtent sink stop ext pos

def emitExtentsChecked (sink : Sink τ) (stop : Nat) :
    List Extent → (pos : Nat) → EStateM Error (FsState β × τ) Nat
  | [], pos => pure pos
  | ext :: exts, pos =>
    if pos ≥ stop ∨ ext.fileOff ≥ stop then pure pos
    else if satAdd ext.fileOff ext.len ≤ pos then emitExtentsChecked sink stop exts pos
    else do
      let pos ← fs.emitExtentChecked sink stop ext pos
      emitExtentsChecked sink stop exts pos

/-- `readRange` in a build that checks the sums of regular extents. -/
def readRangeChecked (loc : Loc) (start stop : Nat) (sink : Sink τ) :
    EStateM Error (FsState β × τ) Unit := do
  let (i, exts) ← onFst (fs.layout loc)
  let pos ← fs.emitExtentsChecked sink (min stop i.size) exts start
  let _ ← emit sink (min stop i.size) pos (min stop i.size) pos none
  pure ()

/-! ## Blocks and the extents they are of -/

section inside

variable (s : FsState β)

/-- The bytes `d` at `p` are the extent's, from within it. -/
def FromInside (e : Extent) (p : Nat) (d : Bytes) : Prop :=
  e.fileOff ≤ p ∧ p + d.length ≤ fs.extentEnd e ∧
  match e.kind with
  | .prealloc => False
  | .inline raw => ∃ plain, fs.inlineData e raw = .ok plain ∧
      p - e.fileOff + d.length ≤ plain.length ∧ d = plain.slice (p - e.fileOff) d.length
  | .regular a n off =>
    a ≠ 0 ∧
    if e.compression = 0 then off + (p - e.fileOff) + d.length ≤ n ∧
      fs.stored s (a + off + (p - e.fileOff)) d.length = .ok d
    else ∃ plain, fs.decompressed s a ⟨n, e.compression, e.ramBytes⟩ = .ok plain ∧
      off + (p - e.fileOff) + d.length ≤ plain.length ∧
      d = plain.slice (off + (p - e.fileOff)) d.length

/-- A range read of the file stays inside its extents. -/
structure StaysInside (loc : Loc) (start stop : Nat) : Prop where
  /-- The data that is emitted is of the extent that the read takes its place from, from
  within it. -/
  inside : ∀ i exts, Result.value (fs.layout loc s) = .ok (i, exts) → ∀ p d,
    (p, .data d) ∈ placed start (Result.state (fs.readRange loc start stop Op.keep (s, []))).2 →
      ∃ e, fs.covering (min stop i.size) exts start p = some e ∧ fs.FromInside s e p d
  /-- No sum overflows on the way: it comes to what it does where the sums are checked, and
  emits the same. -/
  sums : Result.value (fs.readRangeChecked loc start stop Op.keep (s, [])) =
      Result.value (fs.readRange loc start stop Op.keep (s, [])) ∧
    (Result.state (fs.readRangeChecked loc start stop Op.keep (s, []))).2 =
      (Result.state (fs.readRange loc start stop Op.keep (s, []))).2

/-- A step is inside its extent. What is read of an uncompressed one is on the disk; what is
asked for of a compressed one is at offsets of 64 bits, and where the data it is taken from
has them, they are those of the extent itself. -/
def Inside : Step → Prop
  | .block e (.disk a m off) p n => a + off + (p - e.fileOff) < 2 ^ 64 →
      ∀ d, fs.stored s (a + off + (p - e.fileOff)) n = .ok d → off + (p - e.fileOff) + n ≤ m
  | .block e (.unpacked a off D x) p n => ∀ plain, fs.stocked s a x = .ok plain →
      off + (p - e.fileOff) + n < 2 ^ 64 ∧
      (off + (p - e.fileOff) + n ≤ plain.length → ∃ own, fs.decompressed s a D = .ok own ∧
        off + (p - e.fileOff) + n ≤ own.length ∧
        plain.slice (off + (p - e.fileOff)) n = own.slice (off + (p - e.fileOff)) n)
  | _ => True

/-- All steps that are reached are inside their extents. -/
def InBounds (xs : List Step) : Prop := ∀ x, Reached (fs.outcome s wrapping) xs x → fs.Inside s x

end inside

section cutters

variable {plain : Bytes} {off i n : Nat}

theorem wrapping_of_lt (h : off + i + n < 2 ^ 64) : wrapping plain off i n =
    if off + i + n ≤ plain.length then .ok (plain.slice (off + i) n)
    else .error (.msg "extent reference outside its decompressed data") := by
  have hs : wadd off i = off + i := Nat.mod_eq_of_lt (by omega)
  have he : wadd (off + i) n = off + i + n := Nat.mod_eq_of_lt h
  simp only [wrapping, hs, he, Nat.le_add_right, true_and]

theorem checking_of_lt (h : off + i + n < 2 ^ 64) :
    checking plain off i n = wrapping plain off i n := by
  have hs : checkedAdd off i = some (off + i) := if_pos (by omega)
  have he : checkedAdd (off + i) n = some (off + i + n) := if_pos h
  rw [wrapping_of_lt h]
  simp only [checking, hs, he]

theorem checking_of_le (h : 2 ^ 64 ≤ off + i + n) :
    checking plain off i n = .error (.msg "attempt to add with overflow") := by
  unfold checking
  by_cases hs : off + i < 2 ^ 64
  · have hadd : checkedAdd off i = some (off + i) := if_pos hs
    have hnone : checkedAdd (off + i) n = none := if_neg (by omega)
    simp only [hadd, hnone]
  · have hnone : checkedAdd off i = none := if_neg hs
    simp only [hnone]

theorem wrapping_ne_overflow :
    wrapping plain off i n ≠ .error (.msg "attempt to add with overflow") := by
  unfold wrapping
  dsimp only
  split_ifs
  · exact nofun
  · intro h
    have := Except.error.inj h
    simp at this

end cutters

/-! ## One block -/

section block

variable {fs : Fs β} {s : FsState β} {e : Extent} {src : Source} {stop p n : Nat} {d : Bytes}

theorem kind_of_disk {known : Known} {a m off : Nat} (h : e.source known = some (.disk a m off)) :
    e.kind = .regular a m off ∧ a ≠ 0 ∧ e.compression = 0 := by
  unfold Extent.source at h
  cases hk : e.kind with
  | prealloc => simp only [hk] at h; cases h
  | inline raw => simp only [hk] at h; cases h
  | regular a' m' off' =>
    simp only [hk] at h
    split_ifs at h with ha hc
    · cases h
      exact ⟨rfl, ha, hc⟩
    · cases h

theorem kind_of_unpacked {known : Known} {a off : Nat} {D : Description} {x : Stock}
    (h : e.source known = some (.unpacked a off D x)) :
    e.kind = .regular a D.diskNumBytes off ∧ a ≠ 0 ∧ e.compression ≠ 0 ∧
      D = ⟨D.diskNumBytes, e.compression, e.ramBytes⟩ := by
  obtain ⟨a', m, off', hk, ha, hc, hsrc⟩ := e.source_unpacked ⟨a, off, D, x, h⟩
  rw [h] at hsrc
  obtain ⟨rfl, rfl, rfl, -⟩ := Source.unpacked.inj (Option.some.inj hsrc)
  exact ⟨hk, ha, hc, rfl⟩

/-- A block that is read of an extent is from inside it where its step is. -/
theorem fromInside_iff (h : fs.IsBlock stop e src p n) (hd : fs.blockOf s wrapping e src p n = .ok d)
    (hsum : ∀ a off D x, src = .unpacked a off D x → off + (p - e.fileOff) + n < 2 ^ 64) :
    fs.FromInside s e p d ↔ fs.Inside s (.block e src p n) := by
  have hlen := length_blockOf wrapping_exact h hd
  obtain ⟨⟨known, hsrc⟩, hlo, -, -, hhi⟩ := h
  have hwithin : e.fileOff ≤ p ∧ p + d.length ≤ fs.extentEnd e := ⟨hlo, by omega⟩
  unfold FromInside
  rw [hlen] at hwithin ⊢
  simp only [hwithin.1, hwithin.2, true_and]
  cases src with
  | payload raw =>
    obtain ⟨plain, hp, hd⟩ := except_bind_ok.mp hd
    obtain rfl := Except.ok.inj hd
    have hk := e.kind_of_payload hsrc
    have hend : fs.extentEnd e = wadd e.fileOff plain.length := by simp only [extentEnd, hk, hp]
    have hle : wadd e.fileOff plain.length ≤ e.fileOff + plain.length := Nat.mod_le _ _
    simp only [hk]
    exact ⟨fun _ => trivial, fun _ => ⟨plain, hp, by omega, rfl⟩⟩
  | disk a m off =>
    obtain ⟨hk, ha, hc⟩ := kind_of_disk hsrc
    unfold blockOf at hd
    dsimp only at hd
    by_cases hlt : a + off + (p - e.fileOff) < 2 ^ 64
    · have hadd : checkedAdd (a + off) (p - e.fileOff) = some (a + off + (p - e.fileOff)) := if_pos hlt
      rw [hadd] at hd
      dsimp only at hd
      simp only [hk, hc, ha, Inside, ne_eq, not_false_eq_true, if_true, true_and]
      exact ⟨fun hin _ _ _ => hin.1, fun hin => ⟨hin hlt d hd, hd⟩⟩
    · have hadd : checkedAdd (a + off) (p - e.fileOff) = none := if_neg hlt
      rw [hadd] at hd
      cases hd
  | unpacked a off D x =>
    obtain ⟨hk, ha, hc, hD⟩ := kind_of_unpacked hsrc
    obtain ⟨plain, hx, hd⟩ := except_bind_ok.mp hd
    have hsum := hsum a off D x rfl
    rw [wrapping_of_lt hsum] at hd
    split_ifs at hd with hin
    obtain rfl := Except.ok.inj hd
    simp only [hk, hc, ha, ← hD, Inside, hx, ne_eq, not_false_eq_true, if_false, true_and]
    constructor
    · rintro ⟨own, hown, hle, heq⟩ plain' hplain
      obtain rfl := Except.ok.inj hplain
      exact ⟨hsum, fun _ => ⟨own, hown, hle, heq⟩⟩
    · intro hall
      exact (hall plain rfl).2 hin

/-- Where the sums are checked a step comes to the same, unless they overflow. -/
theorem outcome_checked_iff : fs.outcome s wrapping (.block e src p n) =
      fs.outcome s checking (.block e src p n) ↔
    ∀ a off D x plain, src = .unpacked a off D x → fs.stocked s a x = .ok plain →
      off + (p - e.fileOff) + n < 2 ^ 64 := by
  cases src with
  | payload raw => exact ⟨fun _ _ _ _ _ _ h => (by cases h), fun _ => rfl⟩
  | disk a m off => exact ⟨fun _ _ _ _ _ _ h => (by cases h), fun _ => rfl⟩
  | unpacked a off D x =>
    simp only [outcome, blockOf]
    cases hx : fs.stocked s a x with
    | error err =>
      refine ⟨fun _ a' off' D' x' plain h hplain => ?_, fun _ => rfl⟩
      cases h
      rw [hx] at hplain
      cases hplain
    | ok plain =>
      constructor
      · intro heq a' off' D' x' plain' h _
        cases h
        by_contra hle
        have hlast : checking plain off (p - e.fileOff) n = _ := checking_of_le (Nat.le_of_not_lt hle)
        have heq : (wrapping plain off (p - e.fileOff) n).map (fun d => [Piece.data d]) =
            (checking plain off (p - e.fileOff) n).map fun d => [Piece.data d] := heq
        rw [hlast] at heq
        cases hcut : wrapping plain off (p - e.fileOff) n with
        | ok d =>
          rw [hcut] at heq
          cases heq
        | error err =>
          rw [hcut] at heq
          obtain rfl := Except.error.inj heq
          exact wrapping_ne_overflow hcut
      · intro hlt
        have := hlt a off D x plain rfl hx
        exact congrArg (Except.map fun d => [Piece.data d]) (checking_of_lt this).symm

/-- A block that fails is of no bytes, so that it is inside unless its sums overflow. -/
theorem inside_of_error {err : Error} (hd : fs.blockOf s wrapping e src p n = .error err)
    (hsum : ∀ a off D x plain, src = .unpacked a off D x → fs.stocked s a x = .ok plain →
      off + (p - e.fileOff) + n < 2 ^ 64) : fs.Inside s (.block e src p n) := by
  cases src with
  | payload raw => trivial
  | disk a m off =>
    intro hlt d hstored
    have hadd : checkedAdd (a + off) (p - e.fileOff) = some (a + off + (p - e.fileOff)) := if_pos hlt
    rw [blockOf] at hd
    simp only [hadd] at hd
    cases hstored.symm.trans hd
  | unpacked a off D x =>
    intro plain hx
    have hlt := hsum a off D x plain rfl hx
    refine ⟨hlt, fun hin => ?_⟩
    rw [blockOf, hx] at hd
    have hd : wrapping plain off (p - e.fileOff) n = .error err := hd
    rw [wrapping_of_lt hlt, if_pos hin] at hd
    cases hd

theorem lt_of_inside (h : fs.Inside s (.block e src p n)) : ∀ a off D x plain,
    src = .unpacked a off D x → fs.stocked s a x = .ok plain →
      off + (p - e.fileOff) + n < 2 ^ 64 := by
  rintro a off D x plain rfl hx
  exact (h plain hx).1

end block

/-! ## The whole read -/

section whole

variable {fs : Fs β} {s₀ : FsState β}

theorem emitExtentChecked_plays (hfs : fs.Honest) (known : Known) (stop : Nat) (e : Extent) (pos : Nat) :
    fs.Plays s₀ checking known (known.after e) (fs.emitExtentChecked Op.keep stop e pos)
      (fs.brushAfter stop e pos) (fs.extentSteps known stop e pos) := by
  by_cases hc : ∃ a off d x, e.source known = some (.unpacked a off d x)
  · obtain ⟨a, n, off, hk, ha, hcomp, hsrc⟩ := e.source_unpacked hc
    have hx : fs.emitExtentChecked Op.keep stop e pos = (do
        let plain ← onFst (fs.compressedExtent a n e.compression e.ramBytes)
        emit Op.keep stop e.fileOff (satAdd e.fileOff e.len) pos
          (some (readChecked plain off e.fileOff))) := by
      simp only [emitExtentChecked, hk, ha, hcomp, or_self, if_false]
    rw [hx]
    exact unpacked_plays hfs ⟨n, e.compression, e.ramBytes⟩
      (fun plain => readChecked plain off e.fileOff) hsrc (by simp only [extentEnd, hk])
      fun plain p n s => rfl
  · have hx : fs.emitExtentChecked Op.keep stop e pos = fs.emitExtent Op.keep stop e pos := by
      unfold emitExtentChecked
      cases hk : e.kind with
      | inline raw => rfl
      | prealloc => rfl
      | regular a n off =>
        refine if_pos (Decidable.or_iff_not_imp_left.mpr fun ha => ?_)
        by_contra hcomp
        exact hc ⟨a, off, _, _, by simp only [Extent.source, hk, if_neg ha, if_neg hcomp]; rfl⟩
    rw [hx]
    exact plain_plays hfs fun a off d x h => hc ⟨a, off, d, x, h⟩

theorem emitFileChecked_plays (hfs : fs.Honest) (stop : Nat) (exts : List Extent) (known : Known)
    (pos : Nat) : ∃ known', fs.Plays s₀ checking known known'
      (do
        let pos ← fs.emitExtentsChecked Op.keep stop exts pos
        let _ ← emit Op.keep stop pos stop pos none
        pure ()) () (fs.plan stop known exts pos) :=
  loop_plays (fun _ => rfl) (fun _ _ _ => rfl)
    (fun known e pos => emitExtentChecked_plays hfs known stop e pos) exts known pos

theorem readRangeChecked_run (hfs : fs.Honest) (s₀ : FsState β) (start stop : Nat) {loc : Loc}
    {s s₁ : FsState β} {i : Inode} {exts : List Extent}
    (hlay : fs.layout loc s = .ok (i, exts) s₁) : ∃ s',
    fs.readRangeChecked loc start stop Op.keep (s, []) =
      done (played (fs.outcome s₀ checking)
          (fs.plan (min stop i.size) (.of s.lastExtent) exts start)).2
        (s', (played (fs.outcome s₀ checking)
          (fs.plan (min stop i.size) (.of s.lastExtent) exts start)).1) := by
  have hknows : fs.Knows s₀ (.of s.lastExtent) s₁ := lastExtent_layout hlay ▸ knows_of fs s₀ s₁
  obtain ⟨s', hrun⟩ := Plays.run (emitFileChecked_plays hfs (min stop i.size) exts _ start) hknows
  exact ⟨s', (bind_of_ok (onFst_of_ok hlay [])).trans hrun⟩

/-- Both builds play the steps to the same end if and only if no sum that goes into a step
which is reached overflows. -/
theorem played_checked_iff {xs : List Step} :
    played (fs.outcome s₀ wrapping) xs = played (fs.outcome s₀ checking) xs ↔
      ∀ x, Reached (fs.outcome s₀ wrapping) xs x →
        fs.outcome s₀ wrapping x = fs.outcome s₀ checking x := by
  refine played_eq_iff fun x _ => ?_
  cases x with
  | zeros p n => exact .inl rfl
  | ready e src => exact .inl rfl
  | block e src p n =>
    by_cases heq : fs.outcome s₀ wrapping (.block e src p n) = fs.outcome s₀ checking (.block e src p n)
    · exact .inl heq
    refine .inr ?_
    rw [outcome_checked_iff] at heq
    simp only [not_forall] at heq
    obtain ⟨a, off, D, x, plain, rfl, hx, hle⟩ := heq
    refine ⟨.msg "attempt to add with overflow", ?_, fun h => ?_, fun ps hps => ?_⟩
    · simp only [outcome, blockOf, hx, bind, Except.bind, checking_of_le (Nat.le_of_not_lt hle)]
      rfl
    · simp only [outcome, blockOf, hx, bind, Except.bind] at h
      cases hcut : wrapping plain off (p - e.fileOff) n with
      | ok d =>
        rw [hcut] at h
        cases h
      | error err =>
        rw [hcut] at h
        obtain rfl := Except.error.inj h
        exact wrapping_ne_overflow hcut
    · rintro rfl
      simp only [outcome] at hps
      cases hb : fs.blockOf s₀ wrapping e (.unpacked a off D x) p n with
      | ok d =>
        rw [hb] at hps
        cases hps
      | error err =>
        rw [hb] at hps
        cases hps

end whole

section steps

variable {fs : Fs β} {s : FsState β} {stop start : Nat} {exts : List Extent} {xs : List Step}

/-- The steps of a plan that are reached are inside their extents if and only if what the
blocks among them are is, and no sum overflows. -/
theorem inBounds_iff (hxs : xs = fs.plan stop (.of s.lastExtent) exts start) :
    fs.InBounds s xs ↔
      (∀ p d e src n, Reached (fs.outcome s wrapping) xs (.block e src p n) →
        fs.blockOf s wrapping e src p n = .ok d →
          ∃ e', fs.covering stop exts start p = some e' ∧ fs.FromInside s e' p d) ∧
      ∀ x, Reached (fs.outcome s wrapping) xs x →
        fs.outcome s wrapping x = fs.outcome s checking x := by
  have hfrom {e : Extent} {src : Source} {p n : Nat} {d : Bytes}
      (h : Reached (fs.outcome s wrapping) xs (.block e src p n))
      (hd : fs.blockOf s wrapping e src p n = .ok d)
      (hsum : ∀ a off D x plain, src = .unpacked a off D x → fs.stocked s a x = .ok plain →
        off + (p - e.fileOff) + n < 2 ^ 64) :
      (∃ e', fs.covering stop exts start p = some e' ∧ fs.FromInside s e' p d) ↔
        fs.Inside s (.block e src p n) := by
    obtain ⟨hb, -, hcov⟩ := mem_plan (hxs ▸ h.mem)
    rw [← fromInside_iff hb hd fun a off D x hsrc => ?_, hcov]
    · simp
    · subst hsrc
      obtain ⟨plain, hx, -⟩ := except_bind_ok.mp hd
      exact hsum a off D x plain rfl hx
  constructor
  · intro h
    refine ⟨fun p d e src n hr hd => (hfrom hr hd (lt_of_inside (h _ hr))).mpr (h _ hr), fun x hr => ?_⟩
    cases x with
    | zeros p n => rfl
    | ready e src => rfl
    | block e src p n => exact outcome_checked_iff.mpr (lt_of_inside (h _ hr))
  · rintro ⟨hin, hsums⟩ x hr
    cases x with
    | zeros p n => trivial
    | ready e src => trivial
    | block e src p n =>
      have hsum := outcome_checked_iff.mp (hsums _ hr)
      cases hd : fs.blockOf s wrapping e src p n with
      | error err => exact inside_of_error hd hsum
      | ok d => exact (hfrom hr hd hsum).mp (hin p d e src n hr hd)

end steps

theorem staysInside_of_layout_error {fs : Fs β} {loc : Loc} {start stop : Nat} {s s₁ : FsState β} {err : Error}
    (hlay : fs.layout loc s = .error err s₁) : fs.StaysInside s loc start stop := by
  have hfst : onFst (fs.layout loc) (s, ([] : List Piece)) = .error err (s₁, []) := by
    rw [onFst, hlay]
    rfl
  have hread : fs.readRange loc start stop Op.keep (s, []) = .error err (s₁, []) :=
    bind_of_error hfst
  have hchecked : fs.readRangeChecked loc start stop Op.keep (s, []) = .error err (s₁, []) :=
    bind_of_error hfst
  refine ⟨fun i exts h => ?_, ?_⟩
  · rw [hlay] at h
    cases h
  · rw [hread, hchecked]
    exact ⟨rfl, rfl⟩

end Fs

namespace Image

/-- An image of one file of two bytes, in an uncompressed extent of which
`diskNumBytes` are on the disk. -/
def twoBytes (diskNumBytes : Nat) : Spans :=
  image [(⟨ROOT_DIR, INODE_ITEM_KEY, 0⟩, inodeItem 0 0o40755),
    (⟨257, INODE_ITEM_KEY, 0⟩, inodeItem 2 0o100644),
    (⟨257, EXTENT_DATA_KEY, 0⟩, regularExtent 2 0 DATA diskNumBytes 0 2)] [7, 9]

end Image

end BtrfsPeek
