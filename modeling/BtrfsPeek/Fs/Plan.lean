import BtrfsPeek.Fs.Pieces

/-!
# The plan of a range read

What a range read asks for, and in what order, is in the extent items: they give the steps
that it makes unless one of them fails (`Fs.plan`). On devices of fixed content the read
comes to what its plan does when it is played (`Fs.emitFile_plays`), and that is no matter of
the state:

* `Reached`: a step that the read comes to, none of those before it having failed;
* `Fs.mem_plan`: the blocks of a plan are cut from the extent they are of;
* `mem_placed_played`: the data that is emitted is that of the blocks that are reached;
* `Fs.byteAt`: the byte that a read which succeeds returns for a place of the file.
-/

namespace BtrfsPeek

open Effect

variable {β τ : Type}

/-- What a compressed extent is taken to hold: what it decompresses to by a description, or
what was cached for its address before the read. -/
inductive Stock
  | cached (plain : Bytes)
  | described (d : Description)
  deriving DecidableEq, Repr

/-- Where the bytes of an extent are from. -/
inductive Source
  | payload (raw : Bytes)
  | disk (addr diskNumBytes offset : Nat)
  | unpacked (addr offset : Nat) (d : Description) (x : Stock)
  deriving DecidableEq, Repr

/-- A step of a range read: zeros from `p` on, what an extent takes before any of it is read,
and a block of it. -/
inductive Step
  | zeros (p n : Nat)
  | ready (e : Extent) (src : Source)
  | block (e : Extent) (src : Source) (p n : Nat)
  deriving DecidableEq, Repr

/-- The cached extent: its address and what it is taken to hold. -/
abbrev Known := Option (Nat × Stock)

/-- What the cache has when the read starts. -/
def Known.of (last : Option (Nat × Bytes)) : Known := last.map fun x => (x.1, .cached x.2)

/-- What the extent at `addr` is taken to hold: the cache goes by the address alone. -/
def Known.stock (known : Known) (addr : Nat) (d : Description) : Stock :=
  match known with
  | some (a, x) => if a = addr then x else .described d
  | none => .described d

/-- Where the bytes of the extent are from, if it has any. -/
def Extent.source (e : Extent) (known : Known) : Option Source :=
  match e.kind with
  | .prealloc => none
  | .inline raw => some (.payload raw)
  | .regular a n off =>
    let d : Description := ⟨n, e.compression, e.ramBytes⟩
    if a = 0 then none
    else if e.compression = 0 then some (.disk a n off)
    else some (.unpacked a off d (known.stock a d))

theorem Extent.source_unpacked {e : Extent} {known : Known}
    (h : ∃ a off d x, e.source known = some (.unpacked a off d x)) :
    ∃ a n off, e.kind = .regular a n off ∧ a ≠ 0 ∧ e.compression ≠ 0 ∧
      e.source known = some (.unpacked a off ⟨n, e.compression, e.ramBytes⟩
        (known.stock a ⟨n, e.compression, e.ramBytes⟩)) := by
  obtain ⟨b, off', d, x, h⟩ := h
  unfold source at h ⊢
  cases hk : e.kind with
  | prealloc => simp only [hk] at h; cases h
  | inline raw => simp only [hk] at h; cases h
  | regular a n off =>
    simp only [hk] at h
    dsimp only
    split_ifs at h with ha hc
    · cases h
    · exact ⟨a, n, off, rfl, ha, hc, by rw [if_neg ha, if_neg hc]⟩

theorem Extent.kind_of_payload {e : Extent} {known : Known} {raw : Bytes}
    (h : e.source known = some (.payload raw)) : e.kind = .inline raw := by
  unfold source at h
  cases hk : e.kind with
  | prealloc => simp only [hk] at h; cases h
  | inline raw' => simp only [hk] at h; cases h; rfl
  | regular a n off =>
    simp only [hk] at h
    split_ifs at h <;> cases h

/-- What is cached after the extent. -/
def Known.after (known : Known) (e : Extent) : Known :=
  match e.source known with
  | some (.unpacked a _ _ x) => some (a, x)
  | _ => known

/-! ## The steps -/

/-- The blocks that `[pos, hi)` is read in. -/
def blockSteps (e : Extent) (src : Source) (hi : Nat) : (fuel pos : Nat) → List Step
  | 0, _ => []
  | fuel + 1, pos =>
    if pos < hi then
      let n := min (hi - pos) BLOCK
      .block e src pos n :: blockSteps e src hi fuel (pos + n)
    else []

def gapSteps (pos lo : Nat) : List Step := if pos < lo then [.zeros pos (lo - pos)] else []

def bodySteps (e : Extent) (lo hi : Nat) : Option Source → List Step
  | none => [.zeros lo (hi - lo)]
  | some src => blockSteps e src hi (hi - lo) lo

/-- The steps over what is still wanted of `[lo, hi)`. -/
def emitSteps (e : Extent) (src : Option Source) (stop lo hi pos : Nat) : List Step :=
  let lo := max lo pos
  let hi := min hi stop
  if lo < hi then gapSteps pos lo ++ bodySteps e lo hi src else []

namespace Fs

variable (fs : Fs β)

/-- The steps over one extent. -/
def extentSteps (known : Known) (stop : Nat) (e : Extent) (pos : Nat) : List Step :=
  ((e.source known).map (Step.ready e)).toList ++
    emitSteps e (e.source known) stop e.fileOff (fs.extentEnd e) pos

/-- Where the brush is after an extent. -/
def brushAfter (stop : Nat) (e : Extent) (pos : Nat) : Nat :=
  if max e.fileOff pos < min (fs.extentEnd e) stop then min (fs.extentEnd e) stop else pos

/-- The steps of a read up to `stop` of a file of these extents, the trailing hole
included. -/
def plan (stop : Nat) : (known : Known) → List Extent → (pos : Nat) → List Step
  | _, [], pos => gapSteps pos stop
  | known, e :: exts, pos =>
    if pos ≥ stop ∨ e.fileOff ≥ stop then gapSteps pos stop
    else if satAdd e.fileOff e.len ≤ pos then plan stop known exts pos
    else fs.extentSteps known stop e pos ++
      plan stop (known.after e) exts (fs.brushAfter stop e pos)

/-- The extent that the read takes `p` from. -/
def covering (stop : Nat) : List Extent → (pos p : Nat) → Option Extent
  | [], _, _ => none
  | e :: exts, pos, p =>
    if pos ≥ stop ∨ e.fileOff ≥ stop then none
    else if satAdd e.fileOff e.len ≤ pos then covering stop exts pos p
    else if p < fs.brushAfter stop e pos then (if e.fileOff ≤ p then some e else none)
    else covering stop exts (fs.brushAfter stop e pos) p

end Fs

/-! ## What the steps come to -/

/-- A block of decompressed data, `n` bytes from `offset + i` on. -/
abbrev Cutter := (plain : Bytes) → (offset i n : Nat) → Except Error Bytes

/-- The cutter of `readCompressed`, whose sums wrap. -/
def wrapping : Cutter := fun plain offset i n =>
  let s := wadd offset i
  if s ≤ wadd s n ∧ wadd s n ≤ plain.length then .ok (plain.slice s n)
  else .error (.msg "extent reference outside its decompressed data")

namespace Fs

variable (fs : Fs β) (s₀ : FsState β)

/-- What is read at a logical address. -/
def stored (addr n : Nat) : Except Error Bytes := Result.value (fs.readLogical addr n s₀)

/-- The data that are taken for the extent's at `addr`. -/
def stocked (addr : Nat) : Stock → Except Error Bytes
  | .cached plain => .ok plain
  | .described d => fs.decompressed s₀ addr d

/-- What an extent takes before any of it is read. -/
def readied (e : Extent) : Source → Except Error Unit
  | .payload raw => (fs.inlineData e raw).map fun _ => ()
  | .disk a _ off =>
    match checkedAdd a off with
    | none => .error (.msg s!"extent address {a}+{off} overflows")
    | some _ => .ok ()
  | .unpacked a _ _ x => (fs.stocked s₀ a x).map fun _ => ()

/-- The bytes of a block. -/
def blockOf (cutter : Cutter) (e : Extent) (src : Source) (p n : Nat) : Except Error Bytes :=
  match src with
  | .payload raw => do
    let plain ← fs.inlineData e raw
    return plain.slice (p - e.fileOff) n
  | .disk a _ off =>
    match checkedAdd (a + off) (p - e.fileOff) with
    | none => .error (.msg "extent address overflows")
    | some addr => fs.stored s₀ addr n
  | .unpacked a off _ x => do
    let plain ← fs.stocked s₀ a x
    cutter plain off (p - e.fileOff) n

/-- What a step emits, or fails with. -/
def outcome (cutter : Cutter) : Step → Except Error (List Piece)
  | .zeros _ n => .ok [.zeros n]
  | .ready e src => (fs.readied s₀ e src).map fun _ => []
  | .block e src p n => (fs.blockOf s₀ cutter e src p n).map fun d => [.data d]

end Fs

/-- The pieces that the steps emit, as far as the first that fails, and what they come to. -/
def played (f : Step → Except Error (List Piece)) : List Step → List Piece × Except Error Unit
  | [] => ([], .ok ())
  | x :: xs =>
    match f x with
    | .error e => ([], .error e)
    | .ok ps => (ps ++ (played f xs).1, (played f xs).2)

section played

variable {f g : Step → Except Error (List Piece)} {x : Step} {xs ys : List Step}

theorem played_append_of_ok (h : (played f xs).2 = .ok ()) :
    played f (xs ++ ys) = ((played f xs).1 ++ (played f ys).1, (played f ys).2) := by
  induction xs with
  | nil => rfl
  | cons x xs ih =>
    rw [List.cons_append, played]
    rw [played] at h ⊢
    cases hx : f x with
    | error e =>
      rw [hx] at h
      cases h
    | ok ps =>
      rw [hx] at h
      dsimp only at h ⊢
      rw [ih h, List.append_assoc]

theorem played_append_of_error {e : Error} (h : (played f xs).2 = .error e) :
    played f (xs ++ ys) = played f xs := by
  induction xs with
  | nil => cases h
  | cons x xs ih =>
    rw [List.cons_append, played]
    rw [played] at h
    conv_rhs => rw [played]
    cases hx : f x with
    | error e => rfl
    | ok ps =>
      rw [hx] at h
      dsimp only at h ⊢
      rw [ih h]

end played

namespace Fs

/-! ## A read plays its plan -/

/-- What is cached is what it is taken to be. -/
structure Knows (fs : Fs β) (s₀ : FsState β) (known : Known) (s : FsState β) : Prop where
  none : known = none → s.lastExtent = none
  some : ∀ a x, known = some (a, x) →
    ∃ plain, s.lastExtent = some (a, plain) ∧ fs.stocked s₀ a x = .ok plain

/-- From wherever `known` is cached `x` comes to what the steps do, and to `a` if none fails;
`known'` is cached then. -/
def Plays {α : Type} (fs : Fs β) (s₀ : FsState β) (cutter : Cutter) (known known' : Known)
    (x : EStateM Error (FsState β × List Piece) α) (a : α) (xs : List Step) : Prop :=
  ∀ s ps, fs.Knows s₀ known s → ∃ s',
    x (s, ps) = done ((played (fs.outcome s₀ cutter) xs).2.map fun _ => a)
      (s', ps ++ (played (fs.outcome s₀ cutter) xs).1) ∧
    ((played (fs.outcome s₀ cutter) xs).2 = .ok () → fs.Knows s₀ known' s')

section plays

variable {fs : Fs β} {s₀ : FsState β} {cutter : Cutter} {known known₁ known₂ : Known} {α γ : Type}

theorem Knows.dev {s : FsState β} (h : fs.Knows s₀ known s) (dev : β) :
    fs.Knows s₀ known { s with dev := dev } := ⟨h.none, h.some⟩

theorem knows_of (fs : Fs β) (s₀ s : FsState β) : fs.Knows s₀ (.of s.lastExtent) s := by
  constructor
  · exact fun h => Option.map_eq_none_iff.mp h
  · intro a x h
    obtain ⟨⟨b, plain⟩, hs, hx⟩ := Option.map_eq_some_iff.mp h
    cases hx
    exact ⟨plain, hs, rfl⟩

theorem Plays.pure (a : α) : fs.Plays s₀ cutter known known (pure a) a [] :=
  fun s ps h => ⟨s, by rw [played, List.append_nil]; rfl, fun _ => h⟩

theorem Plays.bind {x : EStateM Error (FsState β × List Piece) α}
    {f : α → EStateM Error (FsState β × List Piece) γ} {a : α} {c : γ} {xs ys : List Step}
    (hx : fs.Plays s₀ cutter known known₁ x a xs) (hf : fs.Plays s₀ cutter known₁ known₂ (f a) c ys) :
    fs.Plays s₀ cutter known known₂ (x >>= f) c (xs ++ ys) := by
  intro s ps hs
  obtain ⟨s₁, hrun, hknown⟩ := hx s ps hs
  cases hp : (played (fs.outcome s₀ cutter) xs).2 with
  | error e =>
    rw [hp] at hrun
    rw [played_append_of_error hp, hp]
    exact ⟨s₁, bind_of_error hrun, fun h => nomatch h⟩
  | ok _ =>
    rw [hp] at hrun
    obtain ⟨s₂, hrun₂, hknown₂⟩ := hf s₁ _ (hknown hp)
    rw [played_append_of_ok hp]
    refine ⟨s₂, (bind_of_ok hrun).trans ?_, hknown₂⟩
    rw [hrun₂, List.append_assoc]

/-- What fails before an extent is read. -/
theorem Plays.fail {x : EStateM Error (FsState β × List Piece) α} {e : Extent} {src : Source}
    {err : Error} {a : α} {xs : List Step} (hr : fs.readied s₀ e src = .error err)
    (h : ∀ s ps, fs.Knows s₀ known s → ∃ s', x (s, ps) = .error err (s', ps)) :
    fs.Plays s₀ cutter known known₁ x a (.ready e src :: xs) := by
  intro s ps hs
  obtain ⟨s', hx⟩ := h s ps hs
  rw [played, outcome, hr]
  exact ⟨s', hx.trans (by rw [Except.map, List.append_nil]; rfl), fun hok => by cases hok⟩

/-- What an extent takes, and then `y`. -/
theorem Plays.ready {x y : EStateM Error (FsState β × List Piece) α} {e : Extent} {src : Source}
    {a : α} {xs : List Step} (hr : fs.readied s₀ e src = .ok ())
    (h : ∀ s, fs.Knows s₀ known s → ∃ s₁, fs.Knows s₀ known₁ s₁ ∧ ∀ ps, x (s, ps) = y (s₁, ps))
    (hy : fs.Plays s₀ cutter known₁ known₂ y a xs) :
    fs.Plays s₀ cutter known known₂ x a (.ready e src :: xs) := by
  intro s ps hs
  obtain ⟨s₁, hknown, hx⟩ := h s hs
  rw [played, outcome, hr, hx ps]
  exact hy s₁ ps hknown

theorem zeros_plays (p n : Nat) :
    fs.Plays s₀ cutter known known (onSnd (Op.keep (.zeros n))) () [.zeros p n] :=
  fun s _ h => ⟨s, rfl, fun _ => h⟩

theorem gap_plays (pos lo : Nat) :
    fs.Plays s₀ cutter known known (emitGap Op.keep pos lo) () (gapSteps pos lo) := by
  unfold emitGap gapSteps
  split_ifs
  · exact zeros_plays pos _
  · exact .pure ()

/-- A reader that comes to what the blocks of the extent do. -/
def Supplies (fs : Fs β) (s₀ : FsState β) (cutter : Cutter) (read : Reader β) (e : Extent)
    (src : Source) : Prop :=
  ∀ p n s, ∃ dev, read p n s = done (fs.blockOf s₀ cutter e src p n) { s with dev := dev }

theorem data_plays {read : Reader β} {e : Extent} {src : Source}
    (h : fs.Supplies s₀ cutter read e src) (hi : Nat) : ∀ fuel pos,
    fs.Plays s₀ cutter known known (emitData Op.keep read hi fuel pos) () (blockSteps e src hi fuel pos)
  | 0, _ => .pure ()
  | fuel + 1, pos => by
    unfold emitData blockSteps
    split_ifs
    · dsimp only
      set n := min (hi - pos) BLOCK
      have ih := data_plays h hi fuel (pos + n)
      intro s ps hs
      obtain ⟨dev, hr⟩ := h pos n s
      have hrun : onFst (read pos n) (s, ps) =
          done (fs.blockOf s₀ cutter e src pos n) ({ s with dev := dev }, ps) := by
        rw [Effect.onFst, hr, value_done, state_done]
      rw [played, outcome]
      cases hb : fs.blockOf s₀ cutter e src pos n with
      | error err =>
        rw [hb] at hrun
        exact ⟨_, (bind_of_error hrun).trans (by rw [Except.map, List.append_nil]; rfl),
          fun hok => by cases hok⟩
      | ok d =>
        rw [hb] at hrun
        obtain ⟨s', hrest, hknown⟩ := ih { s with dev := dev } (ps ++ [.data d]) (hs.dev dev)
        have hkeep : onSnd (Op.keep (.data d)) ({ s with dev := dev }, ps) =
            .ok () ({ s with dev := dev }, ps ++ [.data d]) := rfl
        refine ⟨s', (bind_of_ok hrun).trans ((bind_of_ok hkeep).trans (hrest.trans ?_)), hknown⟩
        rw [List.append_assoc]
        rfl
    · exact .pure ()

/-- What is emitted of `[lo, hi)` plays its steps and leaves the brush after it. -/
theorem emit_plays {e : Extent} {src : Option Source} {data : Option (Reader β)} {stop lo hi pos : Nat}
    (h : Option.Rel (fun read src => fs.Supplies s₀ cutter read e src) data src) :
    fs.Plays s₀ cutter known known (emit Op.keep stop lo hi pos data)
      (if max lo pos < min hi stop then min hi stop else pos) (emitSteps e src stop lo hi pos) := by
  unfold emit emitSteps
  dsimp only
  by_cases hlt : max lo pos < min hi stop
  · rw [if_neg (by omega), if_pos hlt, if_pos hlt]
    refine (gap_plays pos (max lo pos)).bind ?_
    have hbody : fs.Plays s₀ cutter known known (emitBytes Op.keep (max lo pos) (min hi stop) data) ()
        (bodySteps e (max lo pos) (min hi stop) src) := by
      cases h with
      | none => exact zeros_plays _ _
      | some h => exact data_plays h _ _ _
    have hdone := hbody.bind (f := fun _ => Pure.pure (min hi stop)) (.pure (min hi stop))
    rwa [List.append_nil] at hdone
  · rw [if_pos (by omega), if_neg hlt, if_neg hlt]
    exact .pure pos

section extent

variable {e : Extent} {stop pos : Nat}

theorem inline_supplies {raw plain : Bytes} (h : fs.inlineData e raw = .ok plain) :
    fs.Supplies s₀ cutter (readInline plain e.fileOff) e (.payload raw) := by
  intro p n s
  refine ⟨s.dev, ?_⟩
  rw [blockOf, h]
  rfl

theorem plain_supplies (hfs : fs.Honest) (a n off : Nat) :
    fs.Supplies s₀ cutter (fs.readPlain (a + off) e.fileOff) e (.disk a n off) := by
  intro p m s
  rw [readPlain, blockOf]
  cases checkedAdd (a + off) (p - e.fileOff) with
  | none => exact ⟨s.dev, rfl⟩
  | some addr => exact run_of_alike (fun R hR => readLogical_alike hR hfs addr m) s s₀

/-- What a cached extent or one that is decompressed comes to. -/
theorem compressedExtent_knows (hfs : fs.Honest) (a : Nat) (d : Description) (s : FsState β)
    (hs : fs.Knows s₀ known s) : ∃ s',
      fs.compressedExtent a d.diskNumBytes d.compression d.ramBytes s =
        done (fs.stocked s₀ a (known.stock a d)) s' ∧
      ∀ plain, fs.stocked s₀ a (known.stock a d) = .ok plain →
        fs.Knows s₀ (some (a, known.stock a d)) s' := by
  have hfetch (hc : cachedExtent a s = none) (hk : known.stock a d = .described d) : ∃ s',
      fs.compressedExtent a d.diskNumBytes d.compression d.ramBytes s =
        done (fs.stocked s₀ a (known.stock a d)) s' ∧
      ∀ plain, fs.stocked s₀ a (known.stock a d) = .ok plain →
        fs.Knows s₀ (some (a, known.stock a d)) s' := by
    obtain ⟨dev, hr⟩ := run_of_alike (fun R hR => decompressExtent_alike hR hfs a d.diskNumBytes
      d.compression d.ramBytes) s s₀
    rw [hk, stocked, decompressed, compressedExtent, bind_of_ok (get_run s), hc]
    dsimp only
    rw [bind_run, hr]
    cases hv : Result.value (fs.decompressExtent a d.diskNumBytes d.compression d.ramBytes s₀) with
    | error err => exact ⟨_, rfl, fun _ h => by cases h⟩
    | ok plain =>
      refine ⟨_, rfl, fun _ _ => ⟨by simp, ?_⟩⟩
      rintro b x ⟨⟩
      exact ⟨plain, rfl, hv⟩
  cases hknown : known with
  | none =>
    rw [hknown] at hfetch
    exact hfetch (by rw [cachedExtent, hs.none hknown]) rfl
  | some y =>
    obtain ⟨b, x⟩ := y
    obtain ⟨plain, hlast, hx⟩ := hs.some b x hknown
    rw [hknown] at hfetch
    by_cases hb : b = a
    · subst hb
      have hstock : Known.stock (some (b, x)) b d = x := if_pos rfl
      have hc : cachedExtent b s = some plain := by rw [cachedExtent, hlast]; exact if_pos rfl
      rw [hstock, hx, compressedExtent, bind_of_ok (get_run s), hc]
      exact ⟨s, rfl, fun _ _ => hknown ▸ hs⟩
    · refine hfetch ?_ (if_neg hb)
      rw [cachedExtent, hlast]
      exact if_neg hb

/-- An extent that is not compressed plays its steps, whatever the cutter. -/
theorem plain_plays (hfs : fs.Honest) (hc : ∀ a off d x, e.source known ≠ some (.unpacked a off d x)) :
    fs.Plays s₀ cutter known (known.after e) (fs.emitExtent Op.keep stop e pos)
      (fs.brushAfter stop e pos) (fs.extentSteps known stop e pos) := by
  have hafter : known.after e = known := by
    unfold Known.after
    split
    · rename_i h
      exact absurd h (hc _ _ _ _)
    · rfl
  rw [hafter, extentSteps, brushAfter]
  have hblank (hsrc : e.source known = none) (hend : fs.extentEnd e = satAdd e.fileOff e.len)
      (hx : fs.emitExtent Op.keep stop e pos =
        emit Op.keep stop e.fileOff (satAdd e.fileOff e.len) pos none) :
      fs.Plays s₀ cutter known known (fs.emitExtent Op.keep stop e pos)
        (if max e.fileOff pos < min (fs.extentEnd e) stop then min (fs.extentEnd e) stop else pos)
        (((e.source known).map (Step.ready e)).toList ++
          emitSteps e (e.source known) stop e.fileOff (fs.extentEnd e) pos) := by
    rw [hx, hsrc, hend]
    exact emit_plays .none
  cases hk : e.kind with
  | prealloc =>
    exact hblank (by simp only [Extent.source, hk]) (by simp only [extentEnd, hk])
      (by simp only [emitExtent, hk])
  | inline raw =>
    have hsrc : e.source known = some (.payload raw) := by simp only [Extent.source, hk]
    rw [hsrc]
    simp only [emitExtent, hk]
    cases hd : fs.inlineData e raw with
    | error err =>
      exact .fail (by rw [readied, hd]; rfl) fun s ps _ => ⟨s, rfl⟩
    | ok plain =>
      have hend : fs.extentEnd e = wadd e.fileOff plain.length := by simp only [extentEnd, hk, hd]
      rw [lift_ok_bind, hend]
      refine .ready (by rw [readied, hd]; rfl) (fun s hs => ⟨s, hs, fun _ => rfl⟩) ?_
      exact emit_plays (.some (inline_supplies hd))
  | regular a n off =>
    have hend : fs.extentEnd e = satAdd e.fileOff e.len := by simp only [extentEnd, hk]
    by_cases ha : a = 0
    · exact hblank (by simp only [Extent.source, hk, if_pos ha]) hend
        (by simp only [emitExtent, hk, if_pos ha])
    by_cases hcomp : e.compression = 0
    · have hsrc : e.source known = some (.disk a n off) := by
        simp only [Extent.source, hk, if_neg ha, if_pos hcomp]
      rw [hsrc, hend]
      simp only [emitExtent, hk, if_neg ha, if_pos hcomp]
      cases hadd : checkedAdd a off with
      | none => exact .fail (by rw [readied, hadd]) fun s ps _ => ⟨s, rfl⟩
      | some base =>
        obtain rfl : base = a + off := by
          unfold checkedAdd at hadd
          split_ifs at hadd
          exact (Option.some.inj hadd).symm
        refine .ready (by rw [readied, hadd]) (fun s hs => ⟨s, hs, fun _ => rfl⟩) ?_
        exact emit_plays (.some (plain_supplies hfs a n off))
    · have hsrc : e.source known = some (.unpacked a off ⟨n, e.compression, e.ramBytes⟩
          (known.stock a ⟨n, e.compression, e.ramBytes⟩)) := by
        simp only [Extent.source, hk, if_neg ha, if_neg hcomp]
      exact absurd hsrc (hc _ _ _ _)

/-- So does a compressed one, if it is read with the cutter. -/
theorem unpacked_plays (hfs : fs.Honest) {a off : Nat} (d : Description) (read : Bytes → Reader β)
    (hsrc : e.source known = some (.unpacked a off d (known.stock a d)))
    (hend : fs.extentEnd e = satAdd e.fileOff e.len)
    (hread : ∀ plain p n s, read plain p n s = done (cutter plain off (p - e.fileOff) n) s) :
    fs.Plays s₀ cutter known (known.after e)
      (do
        let plain ← Effect.onFst (fs.compressedExtent a d.diskNumBytes d.compression d.ramBytes)
        emit Op.keep stop e.fileOff (satAdd e.fileOff e.len) pos (some (read plain)))
      (fs.brushAfter stop e pos) (fs.extentSteps known stop e pos) := by
  have hafter : known.after e = some (a, known.stock a d) := by rw [Known.after, hsrc]
  rw [hafter, extentSteps, brushAfter, hsrc, hend]
  cases hx : fs.stocked s₀ a (known.stock a d) with
  | error err =>
    refine .fail (by rw [readied, hx]; rfl) fun s ps hs => ?_
    obtain ⟨s', hrun, -⟩ := compressedExtent_knows hfs a d s hs
    refine ⟨s', bind_of_error ?_⟩
    rw [onFst, hrun, hx]
    rfl
  | ok plain =>
    refine .ready (y := emit Op.keep stop e.fileOff (satAdd e.fileOff e.len) pos (some (read plain)))
      (by rw [readied, hx]; rfl) (fun s hs => ?_) (emit_plays (.some fun p n s => ⟨s.dev, ?_⟩))
    · obtain ⟨s', hrun, hknown⟩ := compressedExtent_knows hfs a d s hs
      refine ⟨s', hknown plain hx, fun ps => bind_of_ok ?_⟩
      rw [onFst, hrun, hx]
      rfl
    · rw [hread, blockOf, hx]
      rfl

end extent

/-- `readCompressed` reads with the wrapping cutter. -/
theorem readCompressed_run (plain : Bytes) (off lo p n : Nat) (s : FsState β) :
    readCompressed plain off lo p n s = done (wrapping plain off (p - lo) n) s := by
  unfold readCompressed wrapping
  dsimp only
  split_ifs <;> rfl

theorem emitExtent_plays (hfs : fs.Honest) (known : Known) (stop : Nat) (e : Extent) (pos : Nat) :
    fs.Plays s₀ wrapping known (known.after e) (fs.emitExtent Op.keep stop e pos)
      (fs.brushAfter stop e pos) (fs.extentSteps known stop e pos) := by
  by_cases hc : ∃ a off d x, e.source known = some (.unpacked a off d x)
  · obtain ⟨a, n, off, hk, ha, hcomp, hsrc⟩ := e.source_unpacked hc
    have hx : fs.emitExtent Op.keep stop e pos = (do
        let plain ← Effect.onFst (fs.compressedExtent a n e.compression e.ramBytes)
        emit Op.keep stop e.fileOff (satAdd e.fileOff e.len) pos
          (some (readCompressed plain off e.fileOff))) := by
      simp only [emitExtent, hk, if_neg ha, if_neg hcomp]
    rw [hx]
    exact unpacked_plays hfs ⟨n, e.compression, e.ramBytes⟩
      (fun plain => readCompressed plain off e.fileOff) hsrc (by simp only [extentEnd, hk])
      fun plain p n s => readCompressed_run plain off e.fileOff p n s
  · exact plain_plays hfs fun a off d x h => hc ⟨a, off, d, x, h⟩

/-- A loop over the extents plays their steps, if what it does with each of them does. -/
theorem loop_plays {one : Extent → Nat → EStateM Error (FsState β × List Piece) Nat}
    {loop : List Extent → Nat → EStateM Error (FsState β × List Piece) Nat} {stop : Nat}
    (hnil : ∀ pos, loop [] pos = pure pos)
    (hcons : ∀ e exts pos, loop (e :: exts) pos =
      if pos ≥ stop ∨ e.fileOff ≥ stop then pure pos
      else if satAdd e.fileOff e.len ≤ pos then loop exts pos
      else one e pos >>= loop exts)
    (hone : ∀ known e pos, fs.Plays s₀ cutter known (known.after e) (one e pos)
      (fs.brushAfter stop e pos) (fs.extentSteps known stop e pos)) :
    ∀ (exts : List Extent) (known : Known) (pos : Nat), ∃ known', fs.Plays s₀ cutter known known'
      (do
        let pos ← loop exts pos
        let _ ← emit Op.keep stop pos stop pos none
        pure ()) () (fs.plan stop known exts pos) := by
  have htail (known : Known) (pos : Nat) : fs.Plays s₀ cutter known known
      (do
        let _ ← emit Op.keep stop pos stop pos none
        pure ()) () (gapSteps pos stop) := by
    have hemit : fs.Plays s₀ cutter known known (emit Op.keep stop pos stop pos none) _
        (emitSteps ⟨0, 0, 0, 0, .prealloc⟩ none stop pos stop pos) := emit_plays .none
    have hsteps : emitSteps ⟨0, 0, 0, 0, .prealloc⟩ none stop pos stop pos = gapSteps pos stop := by
      simp only [emitSteps, gapSteps, Nat.max_self, Nat.min_self, bodySteps, Nat.lt_irrefl, if_false,
        List.nil_append]
    have h := hemit.bind (f := fun _ => pure ()) (.pure ())
    rwa [List.append_nil, hsteps] at h
  intro exts
  induction exts with
  | nil =>
    intro known pos
    rw [hnil, pure_bind]
    exact ⟨known, htail known pos⟩
  | cons e exts ih =>
    intro known pos
    rw [hcons, plan]
    split_ifs
    · rw [pure_bind]
      exact ⟨known, htail known pos⟩
    · exact ih known pos
    · obtain ⟨known', h⟩ := ih (known.after e) (fs.brushAfter stop e pos)
      refine ⟨known', ?_⟩
      rw [bind_assoc]
      exact (hone known e pos).bind h

/-- A read of the file plays its plan. -/
theorem emitFile_plays (hfs : fs.Honest) (stop : Nat) (exts : List Extent) (known : Known) (pos : Nat) :
    ∃ known', fs.Plays s₀ wrapping known known' (fs.emitFile Op.keep stop exts pos) ()
      (fs.plan stop known exts pos) :=
  loop_plays (fun _ => rfl) (fun _ _ _ => rfl) (fun known e pos => emitExtent_plays hfs known stop e pos)
    exts known pos

/-- Looking up what is read leaves the cached extent. -/
theorem lastExtent_layout {loc : Loc} {s s₁ : FsState β} {r : Inode × List Extent}
    (h : fs.layout loc s = .ok r s₁) : s₁.lastExtent = s.lastExtent :=
  (layout_last (P := fun t : FsState β => t.lastExtent = s.lastExtent)
    (fun _ _ heq ht => heq.symm.trans ht) loc).ok rfl h

/-- What plays the plan of the file of these extents comes to what the plan does. -/
theorem Plays.run {x : EStateM Error (FsState β × List Piece) Unit} {xs : List Step} {s : FsState β}
    (h : ∃ known', fs.Plays s₀ cutter known known' x () xs) (hs : fs.Knows s₀ known s) : ∃ s',
    x (s, []) = done (played (fs.outcome s₀ cutter) xs).2
      (s', (played (fs.outcome s₀ cutter) xs).1) := by
  obtain ⟨known', h⟩ := h
  obtain ⟨s', hrun, -⟩ := h s [] hs
  refine ⟨s', hrun.trans ?_⟩
  cases (played (fs.outcome s₀ cutter) xs).2 <;> rfl

/-- A range read comes to what the plan of its file does. -/
theorem readRange_run (hfs : fs.Honest) (s₀ : FsState β) (start stop : Nat) {loc : Loc}
    {s s₁ : FsState β} {i : Inode} {exts : List Extent}
    (hlay : fs.layout loc s = .ok (i, exts) s₁) : ∃ s',
    fs.readRange loc start stop Op.keep (s, []) =
      done (played (fs.outcome s₀ wrapping) (fs.plan (min stop i.size) (.of s.lastExtent) exts start)).2
        (s', (played (fs.outcome s₀ wrapping)
          (fs.plan (min stop i.size) (.of s.lastExtent) exts start)).1) := by
  have hknows : fs.Knows s₀ (.of s.lastExtent) s₁ := lastExtent_layout hlay ▸ knows_of fs s₀ s₁
  obtain ⟨s', hrun⟩ := Plays.run (emitFile_plays hfs (min stop i.size) exts _ start) hknows
  exact ⟨s', (bind_of_ok (onFst_of_ok hlay [])).trans hrun⟩

end plays

end Fs

/-! ## Steps in order -/

/-- The steps go on from `pos` to `pos'` without a gap. -/
def Laid : (pos : Nat) → List Step → (pos' : Nat) → Prop
  | pos, [], pos' => pos = pos'
  | pos, .ready _ _ :: xs, pos' => Laid pos xs pos'
  | pos, .zeros p n :: xs, pos' => p = pos ∧ Laid (p + n) xs pos'
  | pos, .block _ _ p n :: xs, pos' => p = pos ∧ Laid (p + n) xs pos'

theorem Laid.append {xs ys : List Step} {pos mid pos' : Nat} (h : Laid pos xs mid)
    (h' : Laid mid ys pos') : Laid pos (xs ++ ys) pos' := by
  induction xs generalizing pos with
  | nil => exact h ▸ h'
  | cons x xs ih =>
    cases x with
    | ready e src => exact ih h
    | zeros p n => exact ⟨h.1, ih h.2⟩
    | block e src p n => exact ⟨h.1, ih h.2⟩

theorem Laid.le {xs : List Step} {pos pos' : Nat} (h : Laid pos xs pos') : pos ≤ pos' := by
  induction xs generalizing pos with
  | nil => exact Nat.le_of_eq h
  | cons x xs ih =>
    cases x with
    | ready e src => exact ih h
    | zeros p n => have := h.1; have := ih h.2; omega
    | block e src p n => have := h.1; have := ih h.2; omega

theorem laid_gapSteps {pos lo : Nat} (h : pos ≤ lo) : Laid pos (gapSteps pos lo) lo := by
  unfold gapSteps
  split_ifs with hlt
  · exact ⟨rfl, Nat.add_sub_of_le h⟩
  · exact Nat.le_antisymm h (Nat.le_of_not_lt hlt)

theorem laid_blockSteps {e : Extent} {src : Source} {hi : Nat} : ∀ {fuel pos : Nat}, pos ≤ hi →
    hi ≤ pos + fuel → Laid pos (blockSteps e src hi fuel pos) hi
  | 0, pos, h, h' => Nat.le_antisymm h (by omega)
  | fuel + 1, pos, h, h' => by
    have hblock : 0 < BLOCK := by decide
    unfold blockSteps
    split_ifs with hlt
    · exact ⟨rfl, laid_blockSteps (by omega) (by omega)⟩
    · exact Nat.le_antisymm h (Nat.le_of_not_lt hlt)

theorem laid_emitSteps (e : Extent) (src : Option Source) (stop lo hi pos : Nat) :
    Laid pos (emitSteps e src stop lo hi pos)
      (if max lo pos < min hi stop then min hi stop else pos) := by
  unfold emitSteps
  dsimp only
  split_ifs with hlt
  · refine (laid_gapSteps (Nat.le_max_right lo pos)).append ?_
    cases src with
    | none => exact ⟨rfl, Nat.add_sub_of_le (Nat.le_of_lt hlt)⟩
    | some src => exact laid_blockSteps (Nat.le_of_lt hlt) (by omega)
  · rfl

/-- A block of the extent's bytes. -/
structure Fs.IsBlock (fs : Fs β) (stop : Nat) (e : Extent) (src : Source) (p n : Nat) : Prop where
  source : ∃ known, e.source known = some src
  lo : e.fileOff ≤ p
  pos : 0 < n
  le : n ≤ BLOCK
  hi : p + n ≤ min (fs.extentEnd e) stop

theorem mem_blockSteps {e e' : Extent} {src src' : Source} {hi p n : Nat} : ∀ {fuel pos : Nat},
    .block e' src' p n ∈ blockSteps e src hi fuel pos →
      e' = e ∧ src' = src ∧ pos ≤ p ∧ 0 < n ∧ n ≤ BLOCK ∧ p + n ≤ hi
  | 0, _, h => nomatch h
  | fuel + 1, pos, h => by
    have hblock : 0 < BLOCK := by decide
    unfold blockSteps at h
    split_ifs at h with hlt
    · rcases List.mem_cons.mp h with h | h
      · obtain ⟨rfl, rfl, rfl, rfl⟩ := Step.block.inj h
        exact ⟨rfl, rfl, le_rfl, by omega, Nat.min_le_right _ _, by omega⟩
      · obtain ⟨h₁, h₂, h₃, h₄⟩ := mem_blockSteps h
        exact ⟨h₁, h₂, by omega, h₄⟩
    · cases h

namespace Fs

variable {fs : Fs β} {stop : Nat}

theorem brushAfter_le (e : Extent) (pos : Nat) : fs.brushAfter stop e pos ≤ max pos stop := by
  unfold brushAfter
  split_ifs <;> omega

theorem le_brushAfter (e : Extent) (pos : Nat) : pos ≤ fs.brushAfter stop e pos := by
  unfold brushAfter
  split_ifs <;> omega

theorem laid_extentSteps (known : Known) (e : Extent) (pos : Nat) :
    Laid pos (fs.extentSteps known stop e pos) (fs.brushAfter stop e pos) := by
  unfold extentSteps brushAfter
  have hemit := laid_emitSteps e (e.source known) stop e.fileOff (fs.extentEnd e) pos
  cases h : e.source known with
  | none => rwa [h] at hemit
  | some src => rwa [h] at hemit

/-- A plan goes on to the end without a gap. -/
theorem laid_plan : ∀ (exts : List Extent) (known : Known) (pos : Nat),
    Laid pos (fs.plan stop known exts pos) (max pos stop) := by
  have htail (pos : Nat) : Laid pos (gapSteps pos stop) (max pos stop) := by
    rcases Nat.le_total pos stop with h | h
    · rw [Nat.max_eq_right h]
      exact laid_gapSteps h
    · rw [Nat.max_eq_left h, gapSteps, if_neg (Nat.not_lt.mpr h)]
      rfl
  intro exts
  induction exts with
  | nil => exact fun _ => htail
  | cons e exts ih =>
    intro known pos
    rw [plan]
    split_ifs
    · exact htail pos
    · exact ih known pos
    · have hend : max (fs.brushAfter stop e pos) stop = max pos stop := by
        have hle : fs.brushAfter stop e pos ≤ max pos stop := fs.brushAfter_le e pos
        have hge : pos ≤ fs.brushAfter stop e pos := fs.le_brushAfter e pos
        omega
      exact (laid_extentSteps known e pos).append (hend ▸ ih _ _)

theorem mem_extentSteps {known : Known} {e e' : Extent} {src : Source} {pos p n : Nat}
    (h : .block e' src p n ∈ fs.extentSteps known stop e pos) :
    e' = e ∧ fs.IsBlock stop e src p n ∧ pos ≤ p ∧ p < fs.brushAfter stop e pos := by
  unfold extentSteps emitSteps at h
  dsimp only at h
  rcases List.mem_append.mp h with h | h
  · obtain ⟨_, -, h⟩ := Option.map_eq_some_iff.mp (Option.mem_toList.mp h)
    cases h
  split_ifs at h with hlt
  · have hgap : .block e' src p n ∉ gapSteps pos (max e.fileOff pos) := by
      unfold gapSteps
      split_ifs <;> simp
    replace h := (List.mem_append.mp h).resolve_left hgap
    cases hsrc : e.source known with
    | none =>
      rw [hsrc] at h
      exact nomatch List.mem_singleton.mp h
    | some src' =>
      rw [hsrc] at h
      obtain ⟨rfl, rfl, hp, hn, hle, hhi⟩ := mem_blockSteps h
      refine ⟨rfl, ⟨⟨known, hsrc⟩, by omega, hn, hle, hhi⟩, by omega, ?_⟩
      rw [brushAfter, if_pos hlt]
      omega
  · cases h

/-- The blocks of a plan are cut from the extents that it covers them with. -/
theorem mem_plan {e : Extent} {src : Source} {p n : Nat} : ∀ {exts : List Extent} {known : Known}
    {pos : Nat}, .block e src p n ∈ fs.plan stop known exts pos →
      fs.IsBlock stop e src p n ∧ pos ≤ p ∧ fs.covering stop exts pos p = some e := by
  have htail {pos : Nat} : .block e src p n ∉ gapSteps pos stop := by
    unfold gapSteps
    split_ifs <;> simp
  intro exts
  induction exts with
  | nil => exact fun h => absurd h htail
  | cons e' exts ih =>
    intro known pos h
    rw [plan] at h
    rw [covering]
    split_ifs at h ⊢ with h₁ h₂ h₃ h₄
    · exact absurd h htail
    · exact ih h
    · rcases List.mem_append.mp h with h | h
      · obtain ⟨rfl, hblock, hpos, -⟩ := mem_extentSteps h
        exact ⟨hblock, hpos, rfl⟩
      · obtain ⟨-, hp, -⟩ := ih h
        omega
    · rcases List.mem_append.mp h with h | h
      · obtain ⟨rfl, hblock, -, -⟩ := mem_extentSteps h
        exact absurd hblock.lo h₄
      · obtain ⟨-, hp, -⟩ := ih h
        omega
    · rcases List.mem_append.mp h with h | h
      · obtain ⟨-, -, -, hp⟩ := mem_extentSteps h
        exact absurd hp h₃
      · obtain ⟨hblock, hp, hcov⟩ := ih h
        exact ⟨hblock, (le_brushAfter e' pos).trans hp, hcov⟩

/-- A cutter that cuts as much as it is asked for. -/
def Exact (cutter : Cutter) : Prop :=
  ∀ plain off i n d, n ≤ BLOCK → cutter plain off i n = .ok d → d.length = n

/-- A block does not wrap around, so that what is within the data is all of it. -/
theorem wrapping_exact : Exact wrapping := by
  intro plain off i n d hn h
  have hblock : BLOCK < 2 ^ 64 := by decide
  unfold wrapping at h
  dsimp only at h
  split_ifs at h with hin
  · obtain rfl := Except.ok.inj h
    apply Bytes.length_slice_of_le
    have hmod : wadd off i < 2 ^ 64 := Nat.mod_lt _ (by decide)
    unfold wadd at hin hmod ⊢
    omega

theorem length_stored {s₀ : FsState β} {addr n : Nat} {d : Bytes} (h : fs.stored s₀ addr n = .ok d) :
    d.length = n := by
  unfold stored at h
  cases hr : fs.readLogical addr n s₀ with
  | ok b s =>
    rw [hr] at h
    cases h
    exact length_readLogical hr
  | error e s =>
    rw [hr] at h
    cases h

theorem length_blockOf {s₀ : FsState β} {cutter : Cutter} (hc : Exact cutter) {e : Extent}
    {src : Source} {p n : Nat} {d : Bytes} (h : fs.IsBlock stop e src p n)
    (hd : fs.blockOf s₀ cutter e src p n = .ok d) : d.length = n := by
  cases src with
  | payload raw =>
    obtain ⟨plain, hp, hd⟩ := except_bind_ok.mp hd
    obtain rfl := Except.ok.inj hd
    obtain ⟨known, hsrc⟩ := h.source
    have hk : e.kind = .inline raw := e.kind_of_payload hsrc
    have hend : fs.extentEnd e = wadd e.fileOff plain.length := by simp only [extentEnd, hk, hp]
    have hle : wadd e.fileOff plain.length ≤ e.fileOff + plain.length := Nat.mod_le _ _
    have hhi := h.hi
    have hlo := h.lo
    exact Bytes.length_slice_of_le (by omega)
  | disk a m off =>
    unfold blockOf at hd
    dsimp only at hd
    cases hadd : checkedAdd (a + off) (p - e.fileOff) with
    | none =>
      rw [hadd] at hd
      cases hd
    | some addr =>
      rw [hadd] at hd
      exact length_stored hd
  | unpacked a off D x =>
    obtain ⟨plain, -, hd⟩ := except_bind_ok.mp hd
    exact hc plain off _ n d h.le hd

end Fs

/-! ## What is reached -/

/-- The read comes to the step: none of those before it fails. -/
def Reached (f : Step → Except Error (List Piece)) (xs : List Step) (x : Step) : Prop :=
  ∃ pre post, xs = pre ++ x :: post ∧ (played f pre).2 = .ok ()

section reached

variable {f g : Step → Except Error (List Piece)} {x y : Step} {xs : List Step}

theorem Reached.mem (h : Reached f xs x) : x ∈ xs := by
  obtain ⟨pre, post, rfl, -⟩ := h
  exact List.mem_append_right _ List.mem_cons_self

@[simp] theorem not_reached_nil : ¬ Reached f [] x := fun h => List.not_mem_nil h.mem

theorem reached_cons : Reached f (y :: xs) x ↔ x = y ∨ (∃ ps, f y = .ok ps) ∧ Reached f xs x := by
  constructor
  · rintro ⟨pre, post, heq, hok⟩
    cases pre with
    | nil =>
      rw [List.nil_append] at heq
      exact .inl (List.cons.inj heq).1.symm
    | cons z pre =>
      obtain ⟨rfl, rfl⟩ := List.cons.inj heq
      rw [played] at hok
      cases hz : f y with
      | error e =>
        rw [hz] at hok
        cases hok
      | ok ps =>
        rw [hz] at hok
        exact .inr ⟨⟨ps, rfl⟩, pre, post, rfl, hok⟩
  · rintro (rfl | ⟨⟨ps, hy⟩, pre, post, rfl, hok⟩)
    · exact ⟨[], xs, rfl, rfl⟩
    · refine ⟨y :: pre, post, rfl, ?_⟩
      rw [played, hy]
      exact hok

/-- Two ways to play the steps come to the same if and only if they do for each step that is
reached: where they differ one fails as the other does not, or emits what the other does not. -/
theorem played_eq_iff (h : ∀ x ∈ xs, f x = g x ∨ ∃ e, g x = .error e ∧ f x ≠ .error e ∧
    ∀ ps, f x = .ok ps → ps ≠ []) :
    played f xs = played g xs ↔ ∀ x, Reached f xs x → f x = g x := by
  induction xs with
  | nil => exact ⟨fun _ x hx => absurd hx not_reached_nil, fun _ => rfl⟩
  | cons y xs ih =>
    have ih := ih fun x hx => h x (List.mem_cons_of_mem _ hx)
    rw [played, played]
    rcases h y List.mem_cons_self with hy | ⟨e, hg, hne, hemits⟩
    · rw [← hy]
      cases hf : f y with
      | error e =>
        refine ⟨fun _ x hx => ?_, fun _ => rfl⟩
        rcases reached_cons.mp hx with rfl | ⟨⟨ps, hps⟩, -⟩
        · exact hy
        · rw [hf] at hps
          cases hps
      | ok ps =>
        have hrest : (ps ++ (played f xs).1, (played f xs).2) =
            (ps ++ (played g xs).1, (played g xs).2) ↔ played f xs = played g xs := by
          rw [Prod.ext_iff, Prod.ext_iff, List.append_cancel_left_eq]
        dsimp only
        rw [hrest, ih]
        constructor
        · intro hall x hx
          rcases reached_cons.mp hx with rfl | ⟨-, hx⟩
          · exact hy
          · exact hall x hx
        · exact fun hall x hx => hall x (reached_cons.mpr (.inr ⟨⟨ps, hf⟩, hx⟩))
    · refine ⟨fun heq => ?_, fun hall => ?_⟩
      · rw [hg] at heq
        cases hf : f y with
        | error e' =>
          rw [hf] at heq hne
          obtain ⟨-, heq⟩ := Prod.mk.inj heq
          cases heq
          exact absurd rfl hne
        | ok ps =>
          rw [hf] at heq
          obtain ⟨heq, -⟩ := Prod.mk.inj heq
          exact absurd (List.append_eq_nil_iff.mp heq).1 (hemits ps hf)
      · exact absurd ((hall y (reached_cons.mpr (.inl rfl))).trans hg) hne

end reached

/-! ## Pieces and their places -/

/-- Pieces with their places in the file, from `pos` on. -/
def placed : (pos : Nat) → List Piece → List (Nat × Piece)
  | _, [] => []
  | pos, x :: xs => (pos, x) :: placed (pos + x.length) xs

section places

variable {fs : Fs β} {s₀ : FsState β} {cutter : Cutter} {xs : List Step} {pos pos' p : Nat}

/-- The blocks among the steps are as long as they are asked to be. -/
def Measured (fs : Fs β) (s₀ : FsState β) (cutter : Cutter) (xs : List Step) : Prop :=
  ∀ e src p n d, .block e src p n ∈ xs → fs.blockOf s₀ cutter e src p n = .ok d → d.length = n

theorem measured_plan (hc : Fs.Exact cutter) {stop : Nat} {known : Known} {exts : List Extent} :
    Measured fs s₀ cutter (fs.plan stop known exts pos) := fun _ _ _ _ _ hmem hd =>
  Fs.length_blockOf hc (Fs.mem_plan hmem).1 hd

theorem Measured.tail {x : Step} (h : Measured fs s₀ cutter (x :: xs)) : Measured fs s₀ cutter xs :=
  fun e src p n d hmem hd => h e src p n d (List.mem_cons_of_mem _ hmem) hd

/-- The data that is emitted is that of the blocks that are reached, each at its place. -/
theorem mem_placed_played {d : Bytes} (hl : Laid pos xs pos') (hm : Measured fs s₀ cutter xs) :
    (p, .data d) ∈ placed pos (played (fs.outcome s₀ cutter) xs).1 ↔
      ∃ e src n, Reached (fs.outcome s₀ cutter) xs (.block e src p n) ∧
        fs.blockOf s₀ cutter e src p n = .ok d := by
  induction xs generalizing pos with
  | nil =>
    constructor
    · exact fun h => nomatch h
    · exact fun ⟨_, _, _, h, _⟩ => absurd h not_reached_nil
  | cons x xs ih =>
    cases x with
    | ready e src =>
      have ih := ih hl hm.tail
      simp only [reached_cons, reduceCtorEq, false_or]
      rw [played, Fs.outcome]
      cases hr : fs.readied s₀ e src with
      | error err => simp [Except.map, placed]
      | ok _ => simpa [Except.map] using ih
    | zeros q n =>
      obtain ⟨rfl, hl⟩ := hl
      have ih := ih hl hm.tail
      simp only [reached_cons, reduceCtorEq, false_or]
      rw [played, Fs.outcome]
      simpa [placed, Piece.length] using ih
    | block e src q n =>
      obtain ⟨rfl, hl⟩ := hl
      have ih := ih hl hm.tail
      rw [played, Fs.outcome]
      cases hb : fs.blockOf s₀ cutter e src q n with
      | error err =>
        simp only [Except.map, placed, List.not_mem_nil, reached_cons, Fs.outcome, hb, false_iff]
        rintro ⟨e', src', n', heq | ⟨⟨_, h⟩, -⟩, hd⟩
        · cases heq
          rw [hb] at hd
          cases hd
        · cases h
      | ok b =>
        have hlen : b.length = n := hm e src q n b List.mem_cons_self hb
        simp only [Except.map, List.singleton_append, placed, Piece.length, hlen, List.mem_cons, ih,
          reached_cons, Fs.outcome, hb, Except.ok.injEq, exists_eq', true_and]
        constructor
        · rintro (h | ⟨e', src', n', hr, hd⟩)
          · cases h
            exact ⟨e, src, n, .inl rfl, hb⟩
          · exact ⟨e', src', n', .inr hr, hd⟩
        · rintro ⟨e', src', n', heq | hr, hd⟩
          · cases heq
            rw [hb] at hd
            cases hd
            exact .inl rfl
          · exact .inr ⟨e', src', n', hr, hd⟩

/-! ## The bytes of a read -/

/-- The step's bytes are over `p`. -/
def Step.over (p : Nat) : Step → Bool
  | .ready _ _ => false
  | .zeros q n => q ≤ p && p < q + n
  | .block _ _ q n => q ≤ p && p < q + n

/-- Where a byte of a file is: nowhere, in the payload of an inline extent, among the `n`
bytes that are read at an address, or in the data of a compressed extent. -/
inductive Place
  | hole
  | payload (e : Extent) (raw : Bytes) (i : Nat)
  | disk (addr n i : Nat)
  | unpacked (addr : Nat) (x : Stock) (i : Nat)
  deriving DecidableEq, Repr

/-- Where the step has the byte of `p`. -/
def Step.place (p : Nat) : Step → Place
  | .block e (.payload raw) _ _ => .payload e raw (p - e.fileOff)
  | .block e (.disk a _ off) q n => .disk (a + off + (q - e.fileOff)) n (p - q)
  | .block e (.unpacked a off _ x) _ _ => .unpacked a x (wadd off (p - e.fileOff))
  | _ => .hole

/-- Where the steps take `p` from. -/
def placeAt (xs : List Step) (p : Nat) : Place :=
  match xs.find? (Step.over p) with
  | some x => x.place p
  | none => .hole

/-- The byte of a place. -/
def Fs.holds (fs : Fs β) (s₀ : FsState β) : Place → UInt8
  | .hole => 0
  | .payload e raw i => ((fs.inlineData e raw).toOption.getD []).getD i 0
  | .disk addr n i => ((fs.stored s₀ addr n).toOption.getD []).getD i 0
  | .unpacked addr x i => ((fs.stocked s₀ addr x).toOption.getD []).getD i 0

theorem Bytes.slice_getD {b : Bytes} {off len i : Nat} (h : i < len) :
    (b.slice off len).getD i 0 = b.getD (off + i) 0 := by
  rw [List.getD_eq_getElem?_getD, List.getD_eq_getElem?_getD, Bytes.slice_getElem? h]

/-- A block that is read has what the places of its bytes hold. -/
theorem getD_block {stop : Nat} {e : Extent} {src : Source} {q n : Nat} {d : Bytes}
    (h : fs.IsBlock stop e src q n) (hd : fs.blockOf s₀ wrapping e src q n = .ok d) (hq : q ≤ p)
    (hp : p < q + n) : d.getD (p - q) 0 = fs.holds s₀ ((Step.block e src q n).place p) := by
  have hlo := h.lo
  cases src with
  | payload raw =>
    obtain ⟨plain, hplain, hd⟩ := except_bind_ok.mp hd
    obtain rfl := Except.ok.inj hd
    rw [Bytes.slice_getD (by omega), Step.place, Fs.holds, hplain,
      show q - e.fileOff + (p - q) = p - e.fileOff by omega]
    rfl
  | disk a m off =>
    unfold Fs.blockOf at hd
    dsimp only at hd
    unfold checkedAdd at hd
    split_ifs at hd
    · have hd : fs.stored s₀ (a + off + (q - e.fileOff)) n = .ok d := hd
      rw [Step.place, Fs.holds, hd]
      rfl
  | unpacked a off D x =>
    obtain ⟨plain, hplain, hd⟩ := except_bind_ok.mp hd
    have hd : wrapping plain off (q - e.fileOff) n = .ok d := hd
    unfold wrapping at hd
    dsimp only at hd
    split_ifs at hd with hin
    obtain rfl := Except.ok.inj hd
    have hblock : BLOCK < 2 ^ 64 := by decide
    have hle := h.le
    -- Neither does the block wrap around.
    have hsum : wadd off (q - e.fileOff) + (p - q) = wadd off (p - e.fileOff) := by
      have hmod : wadd off (q - e.fileOff) < 2 ^ 64 := Nat.mod_lt _ (by decide)
      simp only [wadd] at hin hmod ⊢
      omega
    rw [Bytes.slice_getD (by omega), Step.place, Fs.holds, hplain, hsum]
    rfl

/-- The byte that the steps give for `p`, if they succeed. -/
def Fs.byteAt (fs : Fs β) (s₀ : FsState β) (xs : List Step) (p : Nat) : UInt8 :=
  fs.holds s₀ (placeAt xs p)

theorem byteAt_of_over {x : Step} (h : x.over p = true) :
    fs.byteAt s₀ (x :: xs) p = fs.holds s₀ (x.place p) := by
  rw [Fs.byteAt, placeAt, List.find?_cons_of_pos h]

theorem byteAt_of_not_over {x : Step} (h : x.over p = false) :
    fs.byteAt s₀ (x :: xs) p = fs.byteAt s₀ xs p := by
  rw [Fs.byteAt, placeAt, List.find?_cons_of_neg (by rw [h]; exact Bool.false_ne_true)]
  rfl

theorem window_zeros (q n : Nat) :
    Paint.window (fs.byteAt s₀ (.zeros q n :: xs)) q (q + n) = List.replicate n 0 := by
  rw [Paint.window_congr (g := fun _ => 0), Paint.window_const, Nat.add_sub_cancel_left]
  exact fun p hp hp' => byteAt_of_over (by simp [Step.over, hp, hp'])

theorem window_block {stop : Nat} {e : Extent} {src : Source} {q n : Nat} {d : Bytes}
    (h : fs.IsBlock stop e src q n) (hd : fs.blockOf s₀ wrapping e src q n = .ok d) :
    Paint.window (fs.byteAt s₀ (.block e src q n :: xs)) q (q + n) = d := by
  have hlen : d.length = n := Fs.length_blockOf Fs.wrapping_exact h hd
  apply List.ext_getElem?
  intro i
  by_cases hi : i < n
  · have hover : (Step.block e src q n).over (q + i) = true := by simp [Step.over, hi]
    rw [Paint.window_getElem? _ (by omega), byteAt_of_over hover,
      ← getD_block h hd (Nat.le_add_right q i) (by omega), Nat.add_sub_cancel_left,
      List.getD_eq_getElem?_getD, List.getElem?_eq_getElem (by omega), Option.getD_some]
  · rw [List.getElem?_eq_none, List.getElem?_eq_none]
    · omega
    · rw [Paint.length_window]
      omega

/-- What steps in order emit, if they succeed, is the byte of each place. -/
theorem all_played {stop : Nat} (hl : Laid pos xs pos')
    (hb : ∀ e src q n, .block e src q n ∈ xs → fs.IsBlock stop e src q n)
    (hok : (played (fs.outcome s₀ wrapping) xs).2 = .ok ()) :
    Piece.all (played (fs.outcome s₀ wrapping) xs).1 = Paint.window (fs.byteAt s₀ xs) pos pos' := by
  induction xs generalizing pos with
  | nil => exact (Paint.window_of_le (Nat.le_of_eq hl.symm)).symm
  | cons x xs ih =>
    have hrest {q : Nat} (h : Laid q xs pos') (hpast : ∀ p, q ≤ p → x.over p = false)
        (hok : (played (fs.outcome s₀ wrapping) xs).2 = .ok ()) :
        Piece.all (played (fs.outcome s₀ wrapping) xs).1 =
          Paint.window (fs.byteAt s₀ (x :: xs)) q pos' := by
      refine (ih h (fun e src q n hmem => hb e src q n (List.mem_cons_of_mem _ hmem)) hok).trans ?_
      exact Paint.window_congr fun p hp _ => (byteAt_of_not_over (hpast p hp)).symm
    rw [played] at hok ⊢
    cases x with
    | ready e src =>
      rw [Fs.outcome] at hok ⊢
      cases hr : fs.readied s₀ e src with
      | error err =>
        rw [hr] at hok
        cases hok
      | ok _ =>
        rw [hr] at hok
        exact hrest hl (fun _ _ => rfl) hok
    | zeros q n =>
      obtain ⟨rfl, hl⟩ := hl
      rw [← Paint.window_append _ (Nat.le_add_right q n) hl.le]
      refine congrArg₂ (· ++ ·) (window_zeros q n).symm (hrest hl (fun p hp => ?_) hok)
      simp [Step.over, Nat.not_lt.mpr hp]
    | block e src q n =>
      obtain ⟨rfl, hl⟩ := hl
      have hblock := hb e src q n List.mem_cons_self
      rw [Fs.outcome] at hok ⊢
      cases hd : fs.blockOf s₀ wrapping e src q n with
      | error err =>
        rw [hd] at hok
        cases hok
      | ok d =>
        rw [hd] at hok
        rw [← Paint.window_append _ (Nat.le_add_right q n) hl.le]
        refine congrArg₂ (· ++ ·) (window_block hblock hd).symm (hrest hl (fun p hp => ?_) hok)
        simp [Step.over, Nat.not_lt.mpr hp]

end places

namespace Image

/-- What is read of the file of two kinds: all of it, and its end. -/
theorem open_twoKinds : ∃ fs s₀, openImage twoKinds (.empty ()) = .ok fs s₀ ∧
    Result.value (fs.layout FILE s₀) = .ok (⟨3, 0, 0, 0, 0o100644, 0, 0⟩,
      [⟨0, 2, 2, 0, .regular DATA 2 0⟩, ⟨2, 1, 1, 1, .regular (DATA + 2) storedByte.length 0⟩]) ∧
    s₀.lastExtent = none ∧
    (Result.state (fs.readRange FILE 0 U64_MAX Op.keep (s₀, []))).2 = [.data [7, 9], .data [0x61]] ∧
    fs.stored s₀ (DATA + 1) 1 = .ok [9] ∧ fs.stored s₀ DATA 2 = .ok [7, 9] ∧
    Result.value (fs.readBytes FILE 0 U64_MAX s₀) = .ok [7, 9, 0x61] ∧
    Result.value (fs.readBytes FILE 1 3 s₀) = .ok [9, 0x61] := by
  have h : Result.passes (fun (fs : Fs Unit) s₀ =>
      decide (Result.value (fs.layout FILE s₀) = .ok (⟨3, 0, 0, 0, 0o100644, 0, 0⟩,
          [⟨0, 2, 2, 0, .regular DATA 2 0⟩, ⟨2, 1, 1, 1, .regular (DATA + 2) storedByte.length 0⟩]) ∧
        s₀.lastExtent = none ∧
        (Result.state (fs.readRange FILE 0 U64_MAX Op.keep (s₀, []))).2 =
          [.data [7, 9], .data [0x61]] ∧
        fs.stored s₀ (DATA + 1) 1 = .ok [9] ∧ fs.stored s₀ DATA 2 = .ok [7, 9] ∧
        Result.value (fs.readBytes FILE 0 U64_MAX s₀) = .ok [7, 9, 0x61] ∧
        Result.value (fs.readBytes FILE 1 3 s₀) = .ok [9, 0x61]))
      (openImage twoKinds (.empty ())) = true := by
    decide +kernel
  obtain ⟨fs, s₀, ho, hd⟩ := Result.exists_of_passes h
  exact ⟨fs, s₀, ho, of_decide_eq_true hd⟩

end Image

end BtrfsPeek
