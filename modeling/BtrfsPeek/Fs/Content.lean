import BtrfsPeek.Fs.Cache
import BtrfsPeek.Lib.Paint

/-!
# What a range read emits

A range read paints: each extent of the file is a patch (`Fs.patch`), and what
the collected pieces come to is the window of the picture that these leave
(`emitFile_emits`). That is so as far as the bytes of each extent are read right
(`Draws`), which is shown here for what the extents are read with: the copies
of an address (`readLogical_of_agreed`) and the cache of decompressed extents
(`compressedExtent_gives`).
-/

namespace BtrfsPeek

open Effect Paint

variable {β : Type} {I : FsState β → Prop} {E : Prop}

/-- `x` keeps `I` and gives what satisfies `Q`, or fails where `E` allows it. -/
abbrev Gives {α : Type} (I : FsState β → Prop) (E : Prop) (x : FsM β α) (Q : α → Prop) : Prop :=
  Ensures I x (fun a s => Q a ∧ I s) (fun _ _ => E)

/-- From bytes `out`, `x` goes on to bytes that satisfy `Q`. -/
abbrev Emits {α : Type} (I : FsState β → Prop) (E : Prop) (out : Bytes)
    (x : EStateM Error (FsState β × Bytes) α) (Q : α → Bytes → Prop) : Prop :=
  Ensures (fun s => I s.1 ∧ s.2 = out) x (fun a s => I s.1 ∧ Q a s.2) (fun _ _ => E)

theorem Content.read_eq_window (c : Content) (off n : Nat) :
    c.read off n = window c.byte off (off + n) := by
  rw [Content.read, window, Nat.add_sub_cancel_left]

/-! ## Emission -/

theorem collect_emits (p : Piece) (out : Bytes) :
    Emits I E out (onSnd (collect p)) fun _ b => b = out ++ p.bytes := by
  rintro ⟨s, t⟩ ⟨hI, rfl⟩
  exact ⟨hI, rfl⟩

theorem emitData_emits {read : Reader β} {g : Nat → UInt8} {lo hi : Nat}
    (hr : ∀ pos n, lo ≤ pos → 0 < n → n ≤ BLOCK → pos + n ≤ hi →
      Gives I E (read pos n) fun b => b = window g pos (pos + n)) :
    ∀ (fuel pos : Nat) (out : Bytes), lo ≤ pos → pos ≤ hi → hi ≤ pos + fuel →
      Emits I E out (emitData collect read hi fuel pos) fun _ b => b = out ++ window g pos hi
  | 0, pos, out, _, h₁, h₂ => Ensures.pure fun s hs => by
    obtain rfl : pos = hi := by omega
    rw [window_of_le le_rfl, List.append_nil]
    exact hs
  | fuel + 1, pos, out, h₀, h₁, h₂ => by
    unfold emitData
    have hpos : 0 < BLOCK := by decide
    split_ifs with h
    · have hn : 0 < min (hi - pos) BLOCK := by omega
      have hle : pos + min (hi - pos) BLOCK ≤ hi := by omega
      refine ((hr pos _ h₀ hn (Nat.min_le_right _ _) hle).onFst out).bind fun d => ?_
      intro s hs
      obtain ⟨⟨rfl, hI⟩, ho⟩ := hs
      refine Ensures.bind (collect_emits (I := I) (E := E) _ out) (fun _ => ?_) s ⟨hI, ho⟩
      intro s' hs'
      have ih := emitData_emits hr fuel (pos + min (hi - pos) BLOCK) s'.2 (by omega) hle (by omega)
        s' ⟨hs'.1, rfl⟩
      simp only [hs'.2, List.append_assoc, Piece.bytes, window_append g (Nat.le_add_right _ _) hle] at ih
      exact ih
    · exact Ensures.pure fun s hs => by
        obtain rfl : pos = hi := by omega
        rw [window_of_le le_rfl, List.append_nil]
        exact hs

/-- What is left of a patch over `[lo, hi)` after `pos`. -/
def patched (g : Nat → UInt8) (lo p : Nat) : UInt8 := if p < lo then 0 else g p

theorem emit_emits {data : Option (Reader β)} {g : Nat → UInt8} {stop lo hi pos : Nat}
    (hnone : data = none → ∀ p, g p = 0)
    (hr : ∀ read ∈ data, ∀ p n, max lo pos ≤ p → 0 < n → n ≤ BLOCK → p + n ≤ min hi stop →
      Gives I E (read p n) fun b => b = window g p (p + n)) (out : Bytes) :
    Emits I E out (emit collect stop lo hi pos data) fun pos' b =>
      pos' = (if max lo pos < min hi stop then min hi stop else pos) ∧
      b = out ++ window (patched g lo) pos pos' := by
  by_cases h : max lo pos < min hi stop
  · rw [if_pos h, emit, if_neg (by omega)]
    have hgap : Emits I E out (emitGap collect pos (max lo pos)) fun _ b =>
        b = out ++ window (patched g lo) pos (max lo pos) := by
      have hzero : window (patched g lo) pos (max lo pos) = List.replicate (max lo pos - pos) 0 := by
        rw [← window_const]
        exact window_congr fun p _ _ => if_pos (by omega)
      unfold emitGap
      split_ifs with h₃
      · rw [hzero]; exact collect_emits _ out
      · exact Ensures.pure fun s hs => ⟨hs.1, by
          rw [window_of_le (by omega), List.append_nil]; exact hs.2⟩
    refine hgap.bind fun _ => ?_
    intro s hs
    have hbytes : Emits I E s.2 (emitBytes collect (max lo pos) (min hi stop) data) fun _ b =>
        b = s.2 ++ window g (max lo pos) (min hi stop) := by
      cases data with
      | none =>
        rw [window_congr (g := fun _ => 0) fun p _ _ => hnone rfl p, window_const]
        exact collect_emits _ _
      | some read => exact emitData_emits (hr read rfl) _ _ _ le_rfl (by omega) (by omega)
    refine Ensures.bind hbytes (fun _ => Ensures.pure fun s' hs' => ⟨hs'.1, rfl, ?_⟩) s ⟨hs.1, rfl⟩
    rw [hs'.2, hs.2, List.append_assoc, window_congr (f := g) (g := patched g lo)
      fun p _ _ => (if_neg (by omega)).symm, window_append _ (by omega) (by omega)]
  · rw [if_neg h, emit, if_pos (by omega)]
    exact Ensures.pure fun s hs => ⟨hs.1, rfl, by
      rw [window_of_le le_rfl, List.append_nil]; exact hs.2⟩

theorem emit_some_emits {read : Reader β} {g : Nat → UInt8} {stop lo hi pos : Nat}
    (hr : ∀ p n, max lo pos ≤ p → 0 < n → n ≤ BLOCK → p + n ≤ min hi stop →
      Gives I E (read p n) fun b => b = window g p (p + n)) (out : Bytes) :
    Emits I E out (emit collect stop lo hi pos (some read)) fun pos' b =>
      pos' = (if max lo pos < min hi stop then min hi stop else pos) ∧
      b = out ++ window (patched g lo) pos pos' :=
  emit_emits (show some read = none → ∀ p, g p = 0 from nofun) (by rintro _ ⟨⟩; exact hr) out

namespace Fs

/-- The bytes of a range. -/
def readBytes (fs : Fs β) (loc : Loc) (start stop : Nat) : FsM β Bytes := do
  let ((), out) ← withLocal [] (fs.readRange loc start stop collect)
  return out

section patches

variable (fs : Fs β) (s₀ : FsState β) (B : Nat → UInt8)

/-- Where the bytes of an extent end. -/
def extentEnd (e : Extent) : Nat :=
  match e.kind with
  | .inline raw =>
    match fs.inlineData e raw with
    | .ok plain => wadd e.fileOff plain.length
    | .error _ => e.fileOff
  | _ => satAdd e.fileOff e.len

/-- The byte of the file at `p`, by one extent. The byte of a logical address is
`B`'s, and what a compressed extent decompresses to is what it does on the fresh
filesystem. -/
def extentByte (e : Extent) (p : Nat) : UInt8 :=
  match e.kind with
  | .prealloc => 0
  | .inline raw =>
    match fs.inlineData e raw with
    | .ok plain => plain.getD (p - e.fileOff) 0
    | .error _ => 0
  | .regular a n off =>
    if a = 0 then 0
    else if e.compression = 0 then B (a + off + (p - e.fileOff))
    else match fs.decompressed s₀ a ⟨n, e.compression, e.ramBytes⟩ with
      | .ok plain => plain.getD (wadd off (p - e.fileOff)) 0
      | .error _ => 0

/-- An extent, as the range read goes over it. -/
def patch (e : Extent) : Patch UInt8 where
  lo := e.fileOff
  declared := satAdd e.fileOff e.len
  hi := fs.extentEnd e
  val := fs.extentByte s₀ B e

/-- What is still wanted of the extent is emitted right, or `E` allows a
failure. -/
def Draws (I : FsState β → Prop) (E : Prop) (e : Extent) : Prop :=
  ∀ stop pos out, Emits I E out (fs.emitExtent collect stop e pos) fun pos' b =>
    pos' = (fs.patch s₀ B e).brush stop pos ∧
    b = out ++ window (patched (fs.patch s₀ B e).val e.fileOff) pos pos'

end patches

variable {fs : Fs β} {s₀ : FsState β} {B : Nat → UInt8}

/-- The extents paint their picture from `pos` on, as far as `pos'`; the rest is
blank. -/
theorem emitExtents_emits {stop : Nat} :
    ∀ {exts : List Extent} {pos : Nat} (out : Bytes), (∀ e ∈ exts, fs.Draws s₀ B I E e) →
      Emits I E out (fs.emitExtents collect stop exts pos) fun pos' b =>
        pos ≤ pos' ∧ pos' ≤ max pos stop ∧ b ++ window (fun _ => 0) pos' stop =
          out ++ window (shade 0 stop (exts.map (fs.patch s₀ B)) pos) pos stop
  | [], pos, out, _ => Ensures.pure fun s hs => ⟨hs.1, le_rfl, le_max_left _ _, by rw [hs.2]; rfl⟩
  | e :: exts, pos, out, h => by
    have hrest {e'} (he : e' ∈ exts) := h e' (List.mem_cons_of_mem _ he)
    unfold emitExtents
    split_ifs with h₁ h₂
    · refine Ensures.pure fun s hs => ⟨hs.1, le_rfl, le_max_left _ _, ?_⟩
      rw [hs.2]
      congr 1
      exact window_congr fun p _ _ => by rw [List.map_cons, shade]; exact (if_pos h₁).symm
    · have hskip : ∀ p, shade 0 stop ((e :: exts).map (fs.patch s₀ B)) pos p =
          shade 0 stop (exts.map (fs.patch s₀ B)) pos p := fun p => by
        rw [List.map_cons, shade]
        exact (if_neg h₁).trans (if_pos h₂)
      rw [window_congr fun p _ _ => hskip p]
      exact emitExtents_emits out fun e' he => hrest he
    · refine (h e List.mem_cons_self stop pos out).bind fun pos₁ => ?_
      intro s hs
      obtain ⟨hI, hpos, hout⟩ := hs
      have hbrush : pos ≤ pos₁ ∧ pos₁ ≤ max pos stop := by
        rw [hpos, Patch.brush]; split_ifs <;> omega
      refine (emitExtents_emits s.2 fun e' he => hrest he).mono (fun _ h => h) (fun pos' s' h' => ?_)
        (fun _ _ h => h) s ⟨hI, rfl⟩
      obtain ⟨hI', hle, hle', hb⟩ := h'
      refine ⟨hI', hbrush.1.trans hle, by omega, ?_⟩
      have hfar : ∀ p, shade 0 stop ((e :: exts).map (fs.patch s₀ B)) pos p =
          if p < pos₁ then patched (fs.patch s₀ B e).val e.fileOff p
          else shade 0 stop (exts.map (fs.patch s₀ B)) pos₁ p := fun p => by
        have h₁ : ¬ (pos ≥ stop ∨ (fs.patch s₀ B e).lo ≥ stop) := h₁
        have h₂ : ¬ (fs.patch s₀ B e).declared ≤ pos := h₂
        rw [List.map_cons, shade, if_neg h₁, if_neg h₂, ← hpos]
        rfl
      rw [hb, hout, List.append_assoc]
      congr 1
      rw [← window_append _ hbrush.1 (show pos₁ ≤ stop by omega)]
      congr 1
      · exact window_congr fun p _ hp => by rw [hfar, if_pos hp]
      · exact window_congr fun p hp _ => by rw [hfar, if_neg (by omega)]

/-- The pieces emitted are the window of the picture. -/
theorem emitFile_emits {stop start : Nat} {exts : List Extent}
    (h : ∀ e ∈ exts, fs.Draws s₀ B I E e) :
    Emits I E [] (fs.emitFile collect stop exts start) fun _ b =>
      b = window (shade 0 stop (exts.map (fs.patch s₀ B)) start) start stop := by
  refine (emitExtents_emits [] h).bind fun pos => ?_
  intro s hs
  obtain ⟨hI, -, -, hb⟩ := hs
  have hlast : Emits I E s.2 (emit (β := β) collect stop pos stop pos none) fun pos' b =>
      pos' = (if max pos pos < min stop stop then min stop stop else pos) ∧
      b = s.2 ++ window (patched (fun _ => 0) pos) pos pos' :=
    emit_emits (fun _ _ => rfl) (by rintro _ ⟨⟩) s.2
  refine Ensures.bind hlast (fun pos' => Ensures.pure fun s' hs' => ⟨hs'.1, ?_⟩) s ⟨hI, rfl⟩
  obtain ⟨-, hpos', hb'⟩ := hs'
  rw [hb', ← hb.trans (List.nil_append _)]
  congr 1
  rw [window_congr (f := patched (fun _ => 0) pos) (g := fun _ => 0) fun p _ _ => by
    rw [patched]; split_ifs <;> rfl]
  by_cases hlt : pos < stop
  · rw [hpos', if_pos (by omega), Nat.min_self]
  · rw [if_neg (by omega)] at hpos'
    rw [hpos', window_of_le le_rfl, window_of_le (by omega)]

/-- The extents a read comes to: the ones before the first that begins past the
end of the file. -/
def wanted (size : Nat) (exts : List Extent) : List Extent := exts.takeWhile (·.fileOff < size)

theorem emitExtents_wanted (sink : Sink Bytes) {stop size : Nat} (h : stop ≤ size) :
    ∀ (exts : List Extent) (pos : Nat),
      fs.emitExtents sink stop (wanted size exts) pos = fs.emitExtents sink stop exts pos
  | [], _ => rfl
  | e :: exts, pos => by
    have ih := emitExtents_wanted sink h exts
    by_cases he : e.fileOff < size
    · have hw : wanted size (e :: exts) = e :: wanted size exts :=
        List.takeWhile_cons_of_pos (by simpa using he)
      simp only [hw, emitExtents, ih]
    · rw [wanted, List.takeWhile_cons_of_neg (by simpa using he), emitExtents, emitExtents,
        if_pos (by omega)]

/-- A range read of a file whose extents are read right gives the window of their
picture. -/
theorem readBytes_gives {s s₁ : FsState β} {loc : Loc} {i : Inode} {exts : List Extent}
    (hlay : fs.layout loc s = .ok (i, exts) s₁) (hI : I s₁) (start stop : Nat)
    (h : ∀ e ∈ wanted i.size exts, fs.Draws s₀ B I E e) :
    match fs.readBytes loc start stop s with
    | .ok b s' => I s' ∧ b = window (shade 0 (min stop i.size)
        ((wanted i.size exts).map (fs.patch s₀ B)) start) start (min stop i.size)
    | .error _ _ => E := by
  have hfst : onFst (fs.layout loc) (s, ([] : Bytes)) = .ok (i, exts) (s₁, []) := by
    simp only [onFst, hlay, Result.value_ok, Result.state_ok, done_ok]
  have hfile : Emits I E [] (fs.emitFile collect (min stop i.size) (wanted i.size exts) start) _ :=
    emitFile_emits h
  have hemit := hfile (s₁, []) ⟨hI, rfl⟩
  rw [emitFile, emitExtents_wanted collect (Nat.min_le_right _ _), ← emitFile] at hemit
  have hrun : fs.readRange loc start stop collect (s, []) =
      fs.emitFile collect (min stop i.size) exts start (s₁, []) := bind_of_ok hfst
  simp only [readBytes, bind_run, withLocal, hrun]
  cases hx : fs.emitFile collect (min stop i.size) exts start (s₁, []) with
  | ok _ st => rw [hx] at hemit; exact hemit
  | error _ st => rw [hx] at hemit; exact hemit

/-! ## The bytes of an extent -/

/-- What the extent is read with is right, or `E` allows a failure. -/
structure Drawable (fs : Fs β) (s₀ : FsState β) (B : Nat → UInt8) (I : FsState β → Prop) (E : Prop)
    (e : Extent) : Prop where
  inline : ∀ raw, e.kind = .inline raw → (∃ plain, fs.inlineData e raw = .ok plain) ∨ E
  plain : ∀ a n off, e.kind = .regular a n off → a ≠ 0 → e.compression = 0 →
    (a + off < 2 ^ 64 ∧ a + off + e.len ≤ 2 ^ 64 ∨ E) ∧
    ∀ addr m, a + off ≤ addr → 0 < m → m ≤ BLOCK → addr + m ≤ a + off + e.len →
      Gives I E (fs.readLogical addr m) fun b => b = window B addr (addr + m)
  compressed : ∀ a n off, e.kind = .regular a n off → a ≠ 0 → e.compression ≠ 0 →
    Gives I E (fs.compressedExtent a n e.compression e.ramBytes)
      (fun plain => fs.decompressed s₀ a ⟨n, e.compression, e.ramBytes⟩ = .ok plain) ∧
    (E ∨ ∀ plain, fs.decompressed s₀ a ⟨n, e.compression, e.ramBytes⟩ = .ok plain →
      off + e.len ≤ plain.length ∧ plain.length < 2 ^ 64)

theorem slice_eq_window {b : Bytes} {i n : Nat} (h : i + n ≤ b.length) :
    b.slice i n = window (fun q => b.getD q 0) i (i + n) := by
  apply List.ext_getElem?
  intro j
  by_cases hj : j < n
  · rw [Bytes.slice_getElem? hj, window_getElem? _ (by omega), List.getD_eq_getElem?_getD,
      List.getElem?_eq_getElem (by omega), Option.getD_some]
  · rw [List.getElem?_eq_none, List.getElem?_eq_none]
    · simp only [length_window]; omega
    · rw [Bytes.length_slice]; omega

/-- An extent whose bytes are zeros is emitted right. -/
theorem draws_blank {e : Extent} (hend : fs.extentEnd e = satAdd e.fileOff e.len)
    (hval : ∀ p, fs.extentByte s₀ B e p = 0)
    (hemit : ∀ stop pos, fs.emitExtent collect stop e pos =
      emit collect stop e.fileOff (satAdd e.fileOff e.len) pos none) : fs.Draws s₀ B I E e := by
  intro stop pos out
  rw [hemit]
  refine (emit_emits (fun _ => hval) (by rintro _ ⟨⟩) out).mono (fun _ h => h) (fun pos' s h => ?_)
    fun _ _ h => h
  refine ⟨h.1, ?_, h.2.2⟩
  rw [h.2.1, Patch.brush, patch, hend]

theorem draws_inline {e : Extent} {raw : Bytes} (hk : e.kind = .inline raw)
    (h : fs.Drawable s₀ B I E e) : fs.Draws s₀ B I E e := by
  intro stop pos out
  simp only [emitExtent, hk]
  cases hd : fs.inlineData e raw with
  | error err =>
    rcases h.inline raw hk with ⟨plain, hp⟩ | hE
    · rw [hd] at hp; cases hp
    · exact Ensures.throw fun _ _ => hE
  | ok plain =>
    have hend : fs.extentEnd e = wadd e.fileOff plain.length := by simp only [extentEnd, hk, hd]
    have hle : wadd e.fileOff plain.length ≤ e.fileOff + plain.length := Nat.mod_le _ _
    rw [lift_ok_bind]
    refine (emit_some_emits (g := fs.extentByte s₀ B e) ?_ out).mono (fun _ h => h)
      (fun pos' s h => ⟨h.1, ?_, h.2.2⟩) fun _ _ h => h
    · intro p n hp hn _ hpn
      refine Ensures.pure fun s hs => ⟨?_, hs⟩
      rw [slice_eq_window (by omega)]
      refine window_shift fun i hi => ?_
      simp only [extentByte, hk, hd, show p + i - e.fileOff = p - e.fileOff + i by omega]
    · rw [h.2.1, Patch.brush, patch, hend]

theorem draws_plain {e : Extent} {a n off : Nat} (hk : e.kind = .regular a n off) (ha : a ≠ 0)
    (hc : e.compression = 0) (h : fs.Drawable s₀ B I E e) : fs.Draws s₀ B I E e := by
  intro stop pos out
  obtain ⟨hadd, hread⟩ := h.plain a n off hk ha hc
  have hend : fs.extentEnd e = satAdd e.fileOff e.len := by simp only [extentEnd, hk]
  have hle : satAdd e.fileOff e.len ≤ e.fileOff + e.len := Nat.min_le_left _ _
  simp only [emitExtent, hk, if_neg ha, hc, if_true]
  cases hbase : checkedAdd a off with
  | none =>
    unfold checkedAdd at hbase
    split_ifs at hbase
    rcases hadd with hadd | hE
    · omega
    · exact Ensures.throw fun _ _ => hE
  | some base =>
    obtain rfl : base = a + off := by
      unfold checkedAdd at hbase
      split_ifs at hbase
      exact (Option.some.inj hbase).symm
    refine (emit_some_emits (g := fs.extentByte s₀ B e) ?_ out).mono (fun _ h => h)
      (fun pos' s h => ⟨h.1, ?_, h.2.2⟩) fun _ _ h => h
    · intro p m hp hm hb hpm
      unfold readPlain checkedAdd
      split_ifs with hlt
      · dsimp only
        refine (hread (a + off + (p - e.fileOff)) m (by omega) hm hb (by omega)).mono (fun _ h => h)
          (fun b s hs => ⟨?_, hs.2⟩) fun _ _ h => h
        rw [hs.1]
        refine window_shift fun i hi => ?_
        simp only [extentByte, hk, if_neg ha, hc, if_true]
        congr 1
        omega
      · rcases hadd with hadd | hE
        · omega
        · exact Ensures.throw fun _ _ => hE
    · rw [h.2.1, Patch.brush, patch, hend]

theorem draws_compressed {e : Extent} {a n off : Nat} (hk : e.kind = .regular a n off) (ha : a ≠ 0)
    (hc : e.compression ≠ 0) (h : fs.Drawable s₀ B I E e) : fs.Draws s₀ B I E e := by
  intro stop pos out
  obtain ⟨hext, hin⟩ := h.compressed a n off hk ha hc
  have hend : fs.extentEnd e = satAdd e.fileOff e.len := by simp only [extentEnd, hk]
  have hle : satAdd e.fileOff e.len ≤ e.fileOff + e.len := Nat.min_le_left _ _
  have hblock : BLOCK < 2 ^ 64 := by decide
  simp only [emitExtent, hk, if_neg ha, if_neg hc]
  refine (hext.onFst out).bind fun plain => ?_
  rintro s ⟨⟨hd, hI⟩, ho⟩
  refine (emit_some_emits (g := fs.extentByte s₀ B e) ?_ out).mono (fun _ h => h)
    (fun pos' s h => ⟨h.1, ?_, h.2.2⟩) (fun _ _ h => h) s ⟨hI, ho⟩
  · intro p m hp hm hb hpm
    simp only [readCompressed]
    split_ifs with hr
    · refine Ensures.pure fun s hs => ⟨?_, hs⟩
      have hs64 : wadd off (p - e.fileOff) < 2 ^ 64 := Nat.mod_lt _ (by decide)
      -- The end did not wrap past the start.
      have hsum : wadd (wadd off (p - e.fileOff)) m = wadd off (p - e.fileOff) + m := by
        generalize wadd off (p - e.fileOff) = q at hr hs64
        simp only [wadd] at hr ⊢
        omega
      rw [hsum] at hr
      rw [slice_eq_window hr.2]
      refine window_shift fun i hi => ?_
      have hq : wadd off (p + i - e.fileOff) = wadd off (p - e.fileOff) + i := by
        have hlt : wadd off (p - e.fileOff) + m < 2 ^ 64 := hsum ▸ Nat.mod_lt _ (by decide)
        simp only [wadd] at hlt ⊢
        omega
      simp only [extentByte, hk, if_neg ha, if_neg hc, hd, hq]
    · rcases hin with hE | hin
      · exact Ensures.throw fun _ _ => hE
      · obtain ⟨h₁, h₂⟩ := hin plain hd
        exfalso
        simp only [wadd] at hr
        omega
  · rw [h.2.1, Patch.brush, patch, hend]

theorem Drawable.draws {e : Extent} (h : fs.Drawable s₀ B I E e) : fs.Draws s₀ B I E e := by
  cases hk : e.kind with
  | prealloc =>
    exact draws_blank (by simp only [extentEnd, hk]) (fun p => by simp only [extentByte, hk])
      fun _ _ => by simp only [emitExtent, hk]
  | inline raw => exact draws_inline hk h
  | regular a n off =>
    by_cases ha : a = 0
    · exact draws_blank (by simp only [extentEnd, hk])
        (fun p => by simp only [extentByte, hk, if_pos ha])
        fun _ _ => by simp only [emitExtent, hk, if_pos ha]
    · by_cases hc : e.compression = 0
      · exact draws_plain hk ha hc h
      · exact draws_compressed hk ha hc h

/-! ## What the extents are read with -/

section reads

variable (hfs : fs.Honest) (hI : ∀ s dev, I s → I { s with dev := dev })

/-- The copies before one are off the end of their devices, and it holds what `B`
has at `a`. -/
def FirstHolds (B : Nat → UInt8) (a n : Nat) (ms : List (Device β × Nat)) : Prop :=
  ∀ pre m post, ms = pre ++ m :: post →
    (∀ x ∈ pre, ∃ c, x.1.backing.Holds c ∧ c.size < x.2 + n) →
    ∀ c, m.1.backing.Holds c → m.2 + n ≤ c.size → ∀ i < n, c.byte (m.2 + i) = B (a + i)

/-- Wherever a block from `lo` up to `hi` is read, the first of its copies that
can be read holds the bytes `B`. -/
def Agreed (fs : Fs β) (B : Nat → UInt8) (lo hi : Nat) : Prop :=
  ∀ a n ms, lo ≤ a → 0 < n → n ≤ BLOCK → a + n ≤ hi → fs.mirrors a n = .ok ms →
    FirstHolds B a n ms

theorem FirstHolds.tail {B : Nat → UInt8} {a n : Nat} {m : Device β × Nat}
    {ms : List (Device β × Nat)} (h : FirstHolds B a n (m :: ms)) {c : Content}
    (hc : m.1.backing.Holds c) (hs : c.size < m.2 + n) : FirstHolds B a n ms :=
  fun pre m' post hms hpre => h (m :: pre) m' post (by rw [hms]; rfl) fun x hx => by
    rcases List.mem_cons.mp hx with rfl | hx
    · exact ⟨c, hc, hs⟩
    · exact hpre x hx

section mirrors

variable {d : Device β} {phys n : Nat} {ms : List (Device β × Nat)} {e e' : Error} {s s' : FsState β}

theorem readMirrors_of_ok {b : Bytes} (h : onDev (d.read phys n) s = .ok b s') :
    readMirrors n ((d, phys) :: ms) e s = .ok b s' := by
  have ha : attempt (onDev (d.read phys n)) s = .ok (.ok b) s' := by
    rw [attempt_run, h, Result.value_ok, Result.state_ok]
  rw [readMirrors, bind_of_ok ha]
  rfl

theorem readMirrors_of_error (h : onDev (d.read phys n) s = .error e' s') :
    readMirrors n ((d, phys) :: ms) e s = readMirrors n ms e' s' := by
  have ha : attempt (onDev (d.read phys n)) s = .ok (.error e') s' := by
    rw [attempt_run, h, Result.value_error, Result.state_error]
  rw [readMirrors, bind_of_ok ha]

end mirrors

include hI in
/-- A copy gives its bytes, or it is off the end of its device. -/
theorem onDev_read_gives {d : Device β} {c : Content} (hc : d.backing.Holds c) {phys n : Nat}
    (hp : phys < 2 ^ 64) (s : FsState β) (hs : I s) : ∃ s', I s' ∧
      ((∃ e, c.size < phys + n ∧ onDev (d.read phys n) s = .error e s') ∨
        ∃ b, d.outcome c phys n = .ok b ∧ onDev (d.read phys n) s = .ok b s') := by
  obtain ⟨dev, hd⟩ := d.read_of_holds hc n hp s.dev
  have hr := onDev_run hd
  refine ⟨_, hI s dev hs, ?_⟩
  cases ho : d.outcome c phys n with
  | error e =>
    have hlt : c.size < phys + n := by
      by_contra hle
      rw [d.outcome_of_le (Nat.le_of_not_lt hle)] at ho
      cases ho
    rw [ho] at hr; exact .inl ⟨_, hlt, hr⟩
  | ok b => rw [ho] at hr; exact .inr ⟨b, rfl, hr⟩

include hfs hI in
theorem readMirrors_gives {a n : Nat} (hn : 0 < n) {ms : List (Device β × Nat)} (e : Error)
    (hm : ∀ m ∈ ms, (∃ id, (id, m.1) ∈ fs.devs) ∧ m.2 < 2 ^ 64) (hB : FirstHolds B a n ms) :
    Gives I True (readMirrors n ms e) fun b => b = window B a (a + n) := by
  induction ms generalizing e with
  | nil => exact Ensures.throw fun _ _ => trivial
  | cons m ms ih =>
    obtain ⟨d, phys⟩ := m
    obtain ⟨⟨id, hd⟩, hp⟩ := hm (d, phys) List.mem_cons_self
    obtain ⟨c, hc⟩ := hfs _ hd
    have hfirst := hB [] (d, phys) ms rfl (by rintro _ ⟨⟩) c hc
    intro s hs
    obtain ⟨s', hs', ⟨e', hlt, hr⟩ | ⟨b, ho, hr⟩⟩ := onDev_read_gives hI hc (n := n) hp s hs
    · exact Ensures.of_run (ih e' (fun m h => hm m (List.mem_cons_of_mem _ h)) (hB.tail hc hlt) s' hs')
        (readMirrors_of_error hr)
    · have hb : b = window c.byte phys (phys + n) := by
        rw [Device.outcome_ok ho, Content.read_eq_window]
      have hb' := hb.trans (window_shift (hfirst (Device.le_of_outcome_ok ho hn)))
      exact Ensures.of_run (r := .ok b s') ⟨hb', hs'⟩ (readMirrors_of_ok hr)

include hfs hI in
/-- What is read where the copies agree is what they hold. -/
theorem readLogical_of_agreed {lo hi a n : Nat} (hB : fs.Agreed B lo hi) (ha : lo ≤ a) (hn : 0 < n)
    (hb : n ≤ BLOCK) (hh : a + n ≤ hi) :
    Gives I True (fs.readLogical a n) fun b => b = window B a (a + n) := by
  intro s hs
  unfold readLogical
  cases h : fs.mirrors a n with
  | error e => exact trivial
  | ok ms => exact readMirrors_gives hfs hI hn _ (mem_mirrors h) (hB a n ms ha hn hb hh h) s hs

include hI in
/-- Where the first copy reads, it is what is read. -/
theorem readLogical_of_first {a n phys : Nat} {d : Device β} {ms : List (Device β × Nat)} {c : Content}
    (h : fs.mirrors a n = .ok ((d, phys) :: ms)) (hc : d.backing.Holds c) (hs : phys + n ≤ c.size)
    (hB : ∀ i < n, c.byte (phys + i) = B (a + i)) :
    Gives I E (fs.readLogical a n) fun b => b = window B a (a + n) := by
  intro s' hs'
  obtain ⟨dev, hd⟩ := d.read_of_holds hc n (mem_mirrors h _ List.mem_cons_self).2 s'.dev
  have hr := onDev_run hd
  rw [d.outcome_of_le hs] at hr
  have hrun : fs.readLogical a n s' = .ok (c.read phys n) { s' with dev := dev } := by
    rw [readLogical, h, lift_ok_bind, readMirrors_of_ok hr]
  exact Ensures.of_run (r := .ok (c.read phys n) { s' with dev := dev })
    ⟨(Content.read_eq_window c _ _).trans (window_shift hB), hI s' dev hs'⟩ hrun

include hfs in
/-- A compressed extent described once is what it decompresses to. -/
theorem compressedExtent_gives {D : Nat → Description → Prop}
    (hD : ∀ addr d d', D addr d → D addr d' → d = d') {addr : Nat} {d : Description} (hd : D addr d)
    (hE : ∀ e, fs.decompressed s₀ addr d = .error e → E) :
    Gives (fs.LastOk s₀ D) E
      (fs.compressedExtent addr d.diskNumBytes d.compression d.ramBytes)
      (fun plain => fs.decompressed s₀ addr d = .ok plain) := by
  intro s hs
  obtain ⟨dev, last, hl, hr⟩ := compressedExtent_run hfs hD hd hs
  rw [hr]
  cases h : fs.decompressed s₀ addr d with
  | error e => exact hE e h
  | ok plain => exact ⟨rfl, hl⟩

end reads

end Fs

end BtrfsPeek
