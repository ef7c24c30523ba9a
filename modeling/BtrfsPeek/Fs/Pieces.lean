import BtrfsPeek.Fs.Content

/-!
# The pieces of a range read

What a range read hands to its sink is the same whatever the sink is: a run with one that
succeeds is a run that keeps the pieces (`Op.keep`), which are then handed to it in turn
(`Follows`). On any image their lengths add up to what was asked for of the file
(`Fs.total_of_readRange`).
-/

namespace BtrfsPeek

open Effect

variable {β τ α γ : Type}

/-- The length of a piece. -/
def Piece.length : Piece → Nat
  | .data d => d.length
  | .zeros n => n

@[simp] theorem Piece.length_bytes : ∀ p : Piece, p.bytes.length = p.length
  | .data _ => rfl
  | .zeros _ => List.length_replicate

/-- The bytes of all pieces. -/
def Piece.all (ps : List Piece) : Bytes := (ps.map Piece.bytes).flatten

theorem Piece.length_all (ps : List Piece) : (Piece.all ps).length = (ps.map Piece.length).sum := by
  rw [all, List.length_flatten, List.map_map]
  exact congrArg List.sum (List.map_congr_left fun p _ => p.length_bytes)

/-! ## Any sink -/

theorem forEach_append {σ : Type} {f : α → EStateM Error σ Unit} : ∀ {l m : List α} {s s₁ : σ},
    forEach f l s = .ok () s₁ → forEach f (l ++ m) s = forEach f m s₁
  | [], _, s, s₁, h => by
    obtain rfl : s = s₁ := (EStateM.Result.ok.inj h).2
    rfl
  | a :: l, m, s, s₁, h => by
    obtain ⟨⟨⟩, s₂, ha, h⟩ := bind_ok_iff.mp h
    exact (bind_of_ok ha).trans (forEach_append h)

theorem onFst_ok {z : FsM β α} {s s' : FsState β} {t t' : τ} {a : α}
    (h : onFst z (s, t) = .ok a (s', t')) : z s = .ok a s' ∧ t = t' := by
  unfold onFst at h
  dsimp only at h
  cases hz : z s with
  | error e s₁ =>
    rw [hz] at h
    exact nomatch h
  | ok b s₁ =>
    rw [hz] at h
    obtain ⟨rfl, hst⟩ := EStateM.Result.ok.inj h
    obtain ⟨rfl, rfl⟩ := Prod.mk.inj hst
    exact ⟨rfl, rfl⟩

theorem onFst_of_ok {z : FsM β α} {s s' : FsState β} {a : α} (h : z s = .ok a s') (t : τ) :
    onFst z (s, t) = .ok a (s', t) := by
  unfold onFst
  dsimp only
  rw [h]
  rfl

theorem collect_all : ∀ {ps : List Piece} {b b' : Bytes}, forEach collect ps b = .ok () b' →
    b' = b ++ Piece.all ps
  | [], b, b', h => by
    obtain rfl : b = b' := (EStateM.Result.ok.inj h).2
    exact (List.append_nil _).symm
  | p :: ps, b, b', h => by
    obtain ⟨⟨⟩, b₁, hp, h⟩ := bind_ok_iff.mp h
    obtain rfl : b ++ p.bytes = b₁ := (EStateM.Result.ok.inj hp).2
    rw [collect_all h, List.append_assoc]
    rfl

/-- Where `x` succeeds, which hands its pieces to `sink`, `y` keeps them and does the
same else. -/
def Follows (sink : Sink τ) (x : EStateM Error (FsState β × τ) α)
    (y : EStateM Error (FsState β × List Piece) α) : Prop :=
  ∀ s t a s' t', x (s, t) = .ok a (s', t') →
    ∃ ps, (∀ qs, y (s, qs) = .ok a (s', qs ++ ps)) ∧ forEach sink ps t = .ok () t'

namespace Follows

variable {sink : Sink τ} {x : EStateM Error (FsState β × τ) α}
  {y : EStateM Error (FsState β × List Piece) α}

theorem pure (a : α) : Follows sink (pure a : EStateM Error (FsState β × τ) α) (pure a) := by
  intro s t b s' t' h
  obtain ⟨rfl, hst⟩ := EStateM.Result.ok.inj h
  obtain ⟨rfl, rfl⟩ := Prod.mk.inj hst
  exact ⟨[], fun qs => by rw [List.append_nil]; rfl, rfl⟩

theorem throw (e : Error) : Follows sink (throw e : EStateM Error (FsState β × τ) α) (throw e) :=
  fun _ _ _ _ _ h => nomatch h

theorem lift (r : Except Error α) :
    Follows sink (lift r : EStateM Error (FsState β × τ) α) (lift r) := by
  cases r with
  | ok a => exact Follows.pure a
  | error e => exact Follows.throw e

theorem onFst (z : FsM β α) : Follows sink (onFst z) (onFst z) := by
  intro s t a s' t' h
  obtain ⟨hz, rfl⟩ := onFst_ok h
  refine ⟨[], fun qs => ?_, rfl⟩
  rw [List.append_nil]
  exact onFst_of_ok hz qs

theorem piece (p : Piece) : Follows (β := β) sink (onSnd (sink p)) (onSnd (Op.keep p)) := by
  intro s t a s' t' h
  unfold onSnd at h
  dsimp only at h
  cases hp : sink p t with
  | error e t₁ =>
    rw [hp] at h
    exact nomatch h
  | ok b t₁ =>
    rw [hp] at h
    obtain ⟨-, hst⟩ := EStateM.Result.ok.inj h
    obtain ⟨rfl, rfl⟩ := Prod.mk.inj hst
    exact ⟨[p], fun qs => rfl, (bind_of_ok hp).trans rfl⟩

theorem bind {f : α → EStateM Error (FsState β × τ) γ}
    {g : α → EStateM Error (FsState β × List Piece) γ} (h : Follows sink x y)
    (hf : ∀ a, Follows sink (f a) (g a)) : Follows sink (x >>= f) (y >>= g) := by
  intro s t c s' t' hrun
  obtain ⟨a, ⟨s₁, t₁⟩, hx, hrun⟩ := bind_ok_iff.mp hrun
  obtain ⟨ps, hy, hps⟩ := h s t a s₁ t₁ hx
  obtain ⟨qs, hg, hqs⟩ := hf a s₁ t₁ c s' t' hrun
  refine ⟨ps ++ qs, fun rs => ?_, (forEach_append hps).trans hqs⟩
  rw [bind_of_ok (hy rs), hg, List.append_assoc]

theorem ite {c : Prop} [Decidable c] {x' : EStateM Error (FsState β × τ) α}
    {y' : EStateM Error (FsState β × List Piece) α} (h : c → Follows sink x y)
    (h' : ¬ c → Follows sink x' y') :
    Follows sink (if c then x else x') (if c then y else y') := by
  by_cases hc : c
  · rw [if_pos hc, if_pos hc]
    exact h hc
  · rw [if_neg hc, if_neg hc]
    exact h' hc

end Follows

section follows

variable (sink : Sink τ)

theorem emitData_follows (read : Reader β) (hi : Nat) : ∀ fuel pos,
    Follows sink (emitData sink read hi fuel pos) (emitData Op.keep read hi fuel pos)
  | 0, _ => .pure _
  | fuel + 1, pos => by
    refine .ite (fun _ => ?_) fun _ => .pure _
    exact (Follows.onFst _).bind fun _ => (Follows.piece _).bind fun _ =>
      emitData_follows read hi fuel _

theorem emit_follows (stop lo hi pos : Nat) (data : Option (Reader β)) :
    Follows sink (emit sink stop lo hi pos data) (emit Op.keep stop lo hi pos data) := by
  refine .ite (fun _ => .pure _) fun _ => ?_
  refine Follows.bind (.ite (fun _ => .piece _) fun _ => .pure _) fun _ => ?_
  refine Follows.bind ?_ fun _ => .pure _
  cases data with
  | none => exact .piece _
  | some read => exact emitData_follows sink read _ _ _

namespace Fs

variable (fs : Fs β)

theorem emitExtent_follows (stop : Nat) (e : Extent) (pos : Nat) :
    Follows sink (fs.emitExtent sink stop e pos) (fs.emitExtent Op.keep stop e pos) := by
  unfold emitExtent
  cases e.kind with
  | prealloc => exact emit_follows sink stop _ _ pos _
  | inline raw => exact (Follows.lift _).bind fun _ => emit_follows sink stop _ _ pos _
  | regular diskBytenr diskNumBytes offset =>
    refine .ite (fun _ => emit_follows sink stop _ _ pos _) fun _ => ?_
    refine .ite (fun _ => ?_) fun _ => ?_
    · cases checkedAdd diskBytenr offset with
      | none => exact .throw _
      | some base => exact emit_follows sink stop _ _ pos _
    · exact (Follows.onFst _).bind fun _ => emit_follows sink stop _ _ pos _

theorem emitExtents_follows (stop : Nat) : ∀ (exts : List Extent) (pos : Nat),
    Follows sink (fs.emitExtents sink stop exts pos) (fs.emitExtents Op.keep stop exts pos)
  | [], _ => .pure _
  | e :: exts, pos => by
    unfold emitExtents
    refine .ite (fun _ => .pure _) fun _ => ?_
    refine .ite (fun _ => emitExtents_follows stop exts pos) fun _ => ?_
    exact (fs.emitExtent_follows sink stop e pos).bind fun _ => emitExtents_follows stop exts _

/-- A range read that succeeds hands its sink the pieces that one which keeps them keeps. -/
theorem readRange_follows (loc : Loc) (start stop : Nat) :
    Follows sink (fs.readRange loc start stop sink) (fs.readRange loc start stop Op.keep) :=
  (Follows.onFst _).bind fun _ => (fs.emitExtents_follows sink _ _ _).bind fun _ =>
    (emit_follows sink _ _ _ _ _).bind fun _ => .pure _

end Fs

end follows

/-! ## What a sink keeps -/

section keeps

variable {sink : Sink τ} {P : τ → Prop} (hsink : ∀ p, Keeps P (sink p))

include hsink

theorem emitData_keeps (read : Reader β) (hi : Nat) : ∀ fuel pos,
    Keeps (fun s : FsState β × τ => P s.2) (emitData sink read hi fuel pos)
  | 0, _ => .pure _
  | fuel + 1, pos => by
    refine .ite (fun _ => ?_) fun _ => .pure _
    exact (Keeps.onFst _).bind fun _ => (Keeps.onSnd (hsink _)).bind fun _ =>
      emitData_keeps read hi fuel _

theorem emit_keeps (stop lo hi pos : Nat) (data : Option (Reader β)) :
    Keeps (fun s : FsState β × τ => P s.2) (emit sink stop lo hi pos data) := by
  refine .ite (fun _ => .pure _) fun _ => ?_
  refine Keeps.bind (.ite (fun _ => .onSnd (hsink _)) fun _ => .pure _) fun _ => ?_
  refine Keeps.bind ?_ fun _ => .pure _
  cases data with
  | none => exact .onSnd (hsink _)
  | some read => exact emitData_keeps hsink read _ _ _

namespace Fs

variable (fs : Fs β)

theorem emitExtent_keeps (stop : Nat) (e : Extent) (pos : Nat) :
    Keeps (fun s : FsState β × τ => P s.2) (fs.emitExtent sink stop e pos) := by
  unfold emitExtent
  cases e.kind with
  | prealloc => exact emit_keeps hsink stop _ _ pos _
  | inline raw => exact (Keeps.lift _).bind fun _ => emit_keeps hsink stop _ _ pos _
  | regular diskBytenr diskNumBytes offset =>
    refine .ite (fun _ => emit_keeps hsink stop _ _ pos _) fun _ => ?_
    refine .ite (fun _ => ?_) fun _ => ?_
    · cases checkedAdd diskBytenr offset with
      | none => exact .throw _
      | some base => exact emit_keeps hsink stop _ _ pos _
    · exact (Keeps.onFst _).bind fun _ => emit_keeps hsink stop _ _ pos _

theorem emitExtents_keeps (stop : Nat) : ∀ (exts : List Extent) (pos : Nat),
    Keeps (fun s : FsState β × τ => P s.2) (fs.emitExtents sink stop exts pos)
  | [], _ => .pure _
  | e :: exts, pos => by
    unfold emitExtents
    refine .ite (fun _ => .pure _) fun _ => ?_
    refine .ite (fun _ => emitExtents_keeps stop exts pos) fun _ => ?_
    exact (fs.emitExtent_keeps hsink stop e pos).bind fun _ => emitExtents_keeps stop exts _

/-- A range read keeps what its sink keeps. -/
theorem readRange_keeps (loc : Loc) (start stop : Nat) :
    Keeps (fun s : FsState β × τ => P s.2) (fs.readRange loc start stop sink) :=
  (Keeps.onFst _).bind fun _ => (fs.emitExtents_keeps hsink _ _ _).bind fun _ =>
    (emit_keeps hsink _ _ _ _ _).bind fun _ => .pure _

end Fs

end keeps

/-! ## What the lengths add up to -/

/-- The length of all pieces. -/
def Piece.total (ps : List Piece) : Nat := (ps.map Piece.length).sum

theorem Piece.total_append (ps qs : List Piece) : total (ps ++ qs) = total ps + total qs := by
  rw [total, List.map_append, List.sum_append]
  rfl

/-- Where `y` succeeds, what it returns and the length of the pieces it keeps are so. -/
def Totals (y : EStateM Error (FsState β × List Piece) α) (Q : α → Nat → Prop) : Prop :=
  ∀ s qs a s' qs', y (s, qs) = .ok a (s', qs') → ∃ ps, qs' = qs ++ ps ∧ Q a (Piece.total ps)

namespace Totals

variable {y : EStateM Error (FsState β × List Piece) α} {Q : α → Nat → Prop}

theorem pure {a : α} (h : Q a 0) : Totals (pure a : EStateM Error (FsState β × List Piece) α) Q := by
  intro s qs b s' qs' hrun
  obtain ⟨rfl, hst⟩ := EStateM.Result.ok.inj hrun
  obtain ⟨rfl, rfl⟩ := Prod.mk.inj hst
  exact ⟨[], (List.append_nil qs).symm, h⟩

theorem throw (e : Error) : Totals (throw e : EStateM Error (FsState β × List Piece) α) Q :=
  fun _ _ _ _ _ h => nomatch h

theorem lift {r : Except Error α} (h : ∀ a, r = .ok a → Q a 0) :
    Totals (lift r : EStateM Error (FsState β × List Piece) α) Q := by
  cases r with
  | ok a => exact Totals.pure (h a rfl)
  | error e => exact Totals.throw e

theorem onFst {z : FsM β α} (h : ∀ s a s', z s = .ok a s' → Q a 0) : Totals (onFst z) Q := by
  intro s qs a s' qs' hrun
  obtain ⟨hz, rfl⟩ := onFst_ok hrun
  exact ⟨[], (List.append_nil qs).symm, h s a s' hz⟩

theorem piece {p : Piece} {Q : Unit → Nat → Prop} (h : Q () p.length) :
    Totals (β := β) (onSnd (Op.keep p)) Q := by
  intro s qs a s' qs' hrun
  obtain ⟨-, hst⟩ := EStateM.Result.ok.inj hrun
  obtain ⟨rfl, rfl⟩ := Prod.mk.inj hst
  exact ⟨[p], rfl, h⟩

theorem bind {R : γ → Nat → Prop} {g : α → EStateM Error (FsState β × List Piece) γ}
    (h : Totals y Q) (hg : ∀ a n, Q a n → Totals (g a) fun c m => R c (n + m)) :
    Totals (y >>= g) R := by
  intro s qs c s' qs' hrun
  obtain ⟨a, ⟨s₁, qs₁⟩, hy, hrun⟩ := bind_ok_iff.mp hrun
  obtain ⟨ps, rfl, hps⟩ := h s qs a s₁ qs₁ hy
  obtain ⟨rs, rfl, hrs⟩ := hg a _ hps s₁ _ c s' qs' hrun
  exact ⟨ps ++ rs, List.append_assoc .., by rw [Piece.total_append]; exact hrs⟩

theorem mono {Q' : α → Nat → Prop} (h : Totals y Q) (hq : ∀ a n, Q a n → Q' a n) : Totals y Q' := by
  intro s qs a s' qs' hrun
  obtain ⟨ps, hps, hQ⟩ := h s qs a s' qs' hrun
  exact ⟨ps, hps, hq _ _ hQ⟩

theorem ite {c : Prop} [Decidable c] {y' : EStateM Error (FsState β × List Piece) α}
    (h : c → Totals y Q) (h' : ¬ c → Totals y' Q) : Totals (if c then y else y') Q := by
  by_cases hc : c
  · rw [if_pos hc]
    exact h hc
  · rw [if_neg hc]
    exact h' hc

end Totals

/-- Between `lo` and `hi` the reader returns as many bytes as it is asked for. -/
def Reader.Exact (read : Reader β) (lo hi : Nat) : Prop :=
  ∀ pos n s d s', lo ≤ pos → pos + n ≤ hi → n ≤ BLOCK → read pos n s = .ok d s' → d.length = n

theorem emitData_total {read : Reader β} {lo hi : Nat} (h : read.Exact lo hi) : ∀ {fuel pos : Nat},
    lo ≤ pos → hi ≤ pos + fuel →
    Totals (emitData Op.keep read hi fuel pos) fun _ n => n = hi - pos
  | 0, pos, _, hfuel => Totals.pure (by omega)
  | fuel + 1, pos, hlo, hfuel => by
    have hblock : 0 < BLOCK := by decide
    refine .ite (fun hlt => ?_) fun hge => Totals.pure (by omega)
    apply Totals.bind (Q := fun d n => d.length = min (hi - pos) BLOCK ∧ n = 0)
    · apply Totals.onFst
      intro s d s' hread
      exact ⟨h pos _ s d s' hlo (by omega) (Nat.min_le_right _ _) hread, rfl⟩
    · rintro d _ ⟨hd, rfl⟩
      apply Totals.bind (Q := fun _ n => n = min (hi - pos) BLOCK)
        (Totals.piece (show (Piece.data d).length = _ from hd))
      rintro _ _ rfl
      apply (emitData_total h (by omega) (show hi ≤ pos + min (hi - pos) BLOCK + fuel by omega)).mono
      rintro _ n rfl
      omega

/-- What is emitted takes the position on, and not past the end. -/
def Onward (stop pos newpos n : Nat) : Prop := newpos = pos + n ∧ newpos ≤ max pos stop

theorem emit_total {data : Option (Reader β)} {stop lo hi pos : Nat}
    (h : ∀ read ∈ data, Reader.Exact read lo hi) :
    Totals (emit Op.keep stop lo hi pos data) (Onward stop pos) := by
  refine .ite (fun _ => Totals.pure ⟨rfl, Nat.le_max_left _ _⟩) fun hlt => ?_
  apply Totals.bind (Q := fun _ n => n = max lo pos - pos)
  · exact .ite (fun hgap => Totals.piece rfl) fun hgap => Totals.pure (by omega)
  · rintro _ _ rfl
    apply Totals.bind (Q := fun _ n => n = min hi stop - max lo pos)
    · cases data with
      | none => exact Totals.piece rfl
      | some read =>
        have hread : read.Exact (max lo pos) (min hi stop) :=
          fun p n s d s' hp hn => h read rfl p n s d s' (by omega) (by omega)
        exact emitData_total hread (Nat.le_refl _) (by omega)
    · rintro _ _ rfl
      apply Totals.pure
      unfold Onward
      omega

namespace Fs

variable {fs : Fs β}

theorem length_readMirrors {len : Nat} : ∀ {ms : List (Device β × Nat)} {err : Error}
    {s s' : FsState β} {b : Bytes}, readMirrors len ms err s = .ok b s' → b.length = len
  | [], _, _, _, _, h => by cases h
  | (d, phys) :: ms, _, s, s', b, h => by
    obtain ⟨r, s₁, hr, h⟩ := bind_ok_iff.mp h
    cases hd : d.read phys len s.dev with
    | ok b' dev =>
      have hrun : onDev (d.read phys len) s = .ok b' { s with dev := dev } := onDev_run (r := .ok b') hd
      rw [attempt_run, hrun, Result.value_ok] at hr
      cases hr
      cases h
      exact Device.length_of_read hd
    | error e dev =>
      have hrun : onDev (d.read phys len) s = .error (.io e) { s with dev := dev } :=
        onDev_run (r := .error e) hd
      rw [attempt_run, hrun, Result.value_error] at hr
      cases hr
      exact length_readMirrors h

theorem length_readLogical {logical len : Nat} {s s' : FsState β} {b : Bytes}
    (h : fs.readLogical logical len s = .ok b s') : b.length = len := by
  obtain ⟨ms, s₁, -, h⟩ := bind_ok_iff.mp h
  exact length_readMirrors h

variable (fs)

theorem readPlain_exact (base lo hi : Nat) : (fs.readPlain base lo).Exact lo hi := by
  intro pos n s d s' _ _ _ h
  unfold readPlain at h
  cases hadd : checkedAdd base (pos - lo) with
  | none =>
    rw [hadd] at h
    exact nomatch h
  | some addr =>
    rw [hadd] at h
    exact length_readLogical h

/-- A block does not wrap around, so that what is within the data is all of it. -/
theorem readCompressed_exact (plain : Bytes) (offset lo hi : Nat) :
    (readCompressed plain offset lo : Reader β).Exact lo hi := by
  intro pos n s d s' _ _ hn h
  have hblock : BLOCK < 2 ^ 64 := by decide
  unfold readCompressed at h
  split_ifs at h with hin
  · obtain ⟨rfl, -⟩ := EStateM.Result.ok.inj h
    apply Bytes.length_slice_of_le
    have hmod : wadd offset (pos - lo) < 2 ^ 64 := Nat.mod_lt _ (by decide)
    unfold wadd at hin hmod ⊢
    omega
  · exact nomatch h

theorem readInline_exact {plain : Bytes} {lo hi : Nat} (h : hi ≤ lo + plain.length) :
    (readInline plain lo : Reader β).Exact lo hi := by
  intro pos n s d s' hlo hhi _ hread
  obtain ⟨rfl, -⟩ := EStateM.Result.ok.inj hread
  apply Bytes.length_slice_of_le
  omega

theorem emitExtent_total (stop : Nat) (e : Extent) (pos : Nat) :
    Totals (fs.emitExtent Op.keep stop e pos) (Onward stop pos) := by
  have hnone (read : Reader β) (h : read ∈ (none : Option (Reader β))) : read.Exact e.fileOff
      (satAdd e.fileOff e.len) := absurd h (Option.not_mem_none _)
  have hzero {α : Type} {x : α} {n : Nat} {Q : Nat → Nat → Prop} {y : α → EStateM Error _ Nat}
      (h : Totals (y x) Q) (hn : n = 0) : Totals (β := β) (y x) fun a m => Q a (n + m) := by
    subst hn
    exact h.mono fun a m hq => by rwa [Nat.zero_add]
  unfold emitExtent
  cases e.kind with
  | prealloc => exact emit_total hnone
  | inline raw =>
    apply Totals.bind (Q := fun _ n => n = 0) (Totals.lift fun _ _ => rfl)
    intro plain n hn
    refine hzero (y := fun plain => emit Op.keep stop _ _ pos (some (readInline plain _))) ?_ hn
    apply emit_total
    rintro _ ⟨⟩
    exact readInline_exact (Nat.mod_le _ _)
  | regular diskBytenr diskNumBytes offset =>
    refine .ite (fun _ => emit_total hnone) fun _ => .ite (fun _ => ?_) fun _ => ?_
    · cases checkedAdd diskBytenr offset with
      | none => exact .throw _
      | some base =>
        apply emit_total
        rintro _ ⟨⟩
        exact fs.readPlain_exact base _ _
    · apply Totals.bind (Q := fun _ n => n = 0) (Totals.onFst fun _ _ _ _ => rfl)
      intro plain n hn
      refine hzero (y := fun plain => emit Op.keep stop _ _ pos (some (readCompressed plain offset _))) ?_ hn
      apply emit_total
      rintro _ ⟨⟩
      exact readCompressed_exact plain offset _ _

theorem emitExtents_total (stop : Nat) : ∀ (exts : List Extent) (pos : Nat),
    Totals (fs.emitExtents Op.keep stop exts pos) (Onward stop pos)
  | [], pos => Totals.pure ⟨rfl, Nat.le_max_left _ _⟩
  | e :: exts, pos => by
    unfold emitExtents
    refine .ite (fun _ => Totals.pure ⟨rfl, Nat.le_max_left _ _⟩) fun _ => ?_
    refine .ite (fun _ => emitExtents_total stop exts pos) fun _ => ?_
    apply (fs.emitExtent_total stop e pos).bind
    intro pos' n hn
    apply (emitExtents_total stop exts pos').mono
    intro newpos m hm
    unfold Onward at hn hm ⊢
    omega

/-- The trailing hole is up to the end. -/
theorem emitFile_total (stop : Nat) (exts : List Extent) (start : Nat) :
    Totals (fs.emitFile Op.keep stop exts start) fun _ n => n = stop - start := by
  apply (fs.emitExtents_total stop exts start).bind
  intro pos n hn
  refine Totals.bind (Q := fun _ m => m = stop - pos) ?_ fun _ m hm => Totals.pure ?_
  · unfold emit
    dsimp only
    refine .ite (fun hge => Totals.pure (by omega)) fun hlt => ?_
    apply Totals.bind (Q := fun _ m => m = 0)
    · exact .ite (fun hgap => absurd hgap (by omega)) fun _ => Totals.pure rfl
    · rintro _ _ rfl
      refine Totals.bind (Q := fun _ m => m = stop - pos) (Totals.piece ?_) ?_
      · show min stop stop - max pos pos = stop - pos
        omega
      · rintro _ _ rfl
        exact Totals.pure (by omega)
  · unfold Onward at hn
    omega

/-- The pieces of a range read that succeeds are as long together as what the file has of
the range, whatever is on the image. -/
theorem total_of_readRange {loc : Loc} {start stop : Nat} {s s₁ s' : FsState β} {i : Inode}
    {ps : List Piece} (hi : fs.inode loc s = .ok i s₁)
    (h : fs.readRange loc start stop Op.keep (s, []) = .ok () (s', ps)) :
    Piece.total ps = min stop i.size - start := by
  obtain ⟨⟨j, exts⟩, ⟨s₂, qs⟩, hlayout, h⟩ := bind_ok_iff.mp h
  obtain ⟨hread, rfl⟩ := onFst_ok hlayout
  obtain ⟨j', s₃, hj, hread⟩ := bind_ok_iff.mp hread
  obtain ⟨exts', s₄, -, hread⟩ := bind_ok_iff.mp hread
  obtain ⟨hpair, -⟩ := EStateM.Result.ok.inj hread
  obtain ⟨rfl, rfl⟩ := Prod.mk.inj hpair
  rw [hi] at hj
  obtain ⟨rfl, -⟩ := EStateM.Result.ok.inj hj
  obtain ⟨qs, hqs, htotal⟩ := fs.emitFile_total _ _ _ s₂ [] () s' ps h
  rw [hqs, List.nil_append]
  exact htotal

end Fs

end BtrfsPeek
