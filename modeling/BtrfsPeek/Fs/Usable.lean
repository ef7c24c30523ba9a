import BtrfsPeek.Fs.WellFormed

/-!
# Reads that succeed

A range read of a file succeeds where what its extents are read with does
(`Fs.Readable`), whatever it hands its pieces to, as long as that takes them
(`Fs.readRange_succeeds`).
-/

namespace BtrfsPeek

open Effect SearchTree

variable {β τ : Type} {I : FsState β → Prop}

/-- The sink takes every piece. -/
def Sink.Takes (sink : Sink τ) : Prop := ∀ p t, ∃ t', sink p t = .ok () t'

theorem takes_collect : Sink.Takes collect := fun p t => ⟨t ++ p.bytes, rfl⟩

/-- In every state of the filesystem that satisfies `I`, and every state of the
sink, `x` succeeds. -/
abbrev Flows {α : Type} (I : FsState β → Prop) (x : EStateM Error (FsState β × τ) α) : Prop :=
  Succeeds (fun s => I s.1) x

variable {sink : Sink τ}

theorem Sink.Takes.flows (h : sink.Takes) (p : Piece) : Flows I (onSnd (sink p)) := by
  intro s hs
  obtain ⟨t', ht⟩ := h p s.2
  simp only [onSnd, ht, Result.value_ok, Result.state_ok, done_ok]
  exact hs

/-- What a read of the filesystem ensures, beside a sink. -/
theorem ensures_onFst {α : Type} {x : FsM β α} {Q : α → Prop}
    (h : Ensures I x (fun a s => I s ∧ Q a) (fun _ _ => False)) :
    Ensures (fun s : FsState β × τ => I s.1) (onFst x) (fun a s => I s.1 ∧ Q a)
      (fun _ _ => False) :=
  Ensures.onFst_of fun _ => h

theorem flows_onFst {α : Type} {x : FsM β α} (h : Succeeds I x) :
    Flows I (onFst x : EStateM Error (FsState β × τ) α) :=
  Ensures.onFst_of fun _ => h

theorem emitData_flows (hsink : sink.Takes) {read : Reader β} {lo hi : Nat}
    (hr : ∀ p n, lo ≤ p → 0 < n → n ≤ BLOCK → p + n ≤ hi → Succeeds I (read p n)) :
    ∀ fuel pos, lo ≤ pos → Flows I (emitData sink read hi fuel pos)
  | 0, _, _ => Ensures.pure fun _ h => h
  | fuel + 1, pos, hlo => by
    have hblock : 0 < BLOCK := by decide
    unfold emitData
    split_ifs with hlt
    · have hread := hr pos (min (hi - pos) BLOCK) hlo (by omega) (Nat.min_le_right _ _) (by omega)
      apply (flows_onFst hread).bind
      intro d
      apply (hsink.flows (.data d)).bind
      intro _
      exact emitData_flows hsink hr fuel _ (by omega)
    · exact Ensures.pure fun _ h => h

theorem emitGap_flows (hsink : sink.Takes) (pos lo : Nat) :
    Flows I (emitGap (β := β) sink pos lo) := by
  unfold emitGap
  split_ifs
  · exact hsink.flows _
  · exact Ensures.pure fun _ h => h

theorem emit_flows (hsink : sink.Takes) {data : Option (Reader β)} {stop lo hi pos : Nat}
    (hr : ∀ read ∈ data, ∀ p n, max lo pos ≤ p → 0 < n → n ≤ BLOCK → p + n ≤ min hi stop →
      Succeeds I (read p n)) : Flows I (emit sink stop lo hi pos data) := by
  unfold emit
  dsimp only
  split_ifs with h
  · exact Ensures.pure fun _ h => h
  · apply (emitGap_flows hsink _ _).bind
    intro _
    have hbytes : Flows I (emitBytes sink (max lo pos) (min hi stop) data) := by
      cases data with
      | none => exact hsink.flows _
      | some read => exact emitData_flows hsink (hr read rfl) _ _ le_rfl
    apply hbytes.bind
    intro _
    exact Ensures.pure fun _ h => h

namespace Fs

/-- What the extent is read with succeeds, and gives enough. -/
structure Readable (fs : Fs β) (I : FsState β → Prop) (e : Extent) : Prop where
  inline : ∀ raw, e.kind = .inline raw → ∃ plain, fs.inlineData e raw = .ok plain
  plain : ∀ a n off, e.kind = .regular a n off → a ≠ 0 → e.compression = 0 →
    a + off < 2 ^ 64 ∧ a + off + e.len ≤ 2 ^ 64 ∧
    ∀ addr m, a + off ≤ addr → 0 < m → m ≤ BLOCK → addr + m ≤ a + off + e.len →
      Succeeds I (fs.readLogical addr m)
  compressed : ∀ a n off, e.kind = .regular a n off → a ≠ 0 → e.compression ≠ 0 →
    Ensures I (fs.compressedExtent a n e.compression e.ramBytes)
      (fun plain s => I s ∧ off + e.len ≤ plain.length ∧ plain.length < 2 ^ 64) (fun _ _ => False)

variable {fs : Fs β}

theorem satAdd_le (a b : Nat) : satAdd a b ≤ a + b := Nat.min_le_left _ _

theorem readPlain_succeeds {e : Extent} {base : Nat} (hbase : base + e.len ≤ 2 ^ 64)
    (hread : ∀ addr m, base ≤ addr → 0 < m → m ≤ BLOCK → addr + m ≤ base + e.len →
      Succeeds I (fs.readLogical addr m)) {p n : Nat} (hlo : e.fileOff ≤ p) (hn : 0 < n)
    (hb : n ≤ BLOCK) (hhi : p + n ≤ e.fileOff + e.len) :
    Succeeds I (fs.readPlain base e.fileOff p n) := by
  have hsum : checkedAdd base (p - e.fileOff) = some (base + (p - e.fileOff)) := if_pos (by omega)
  rw [readPlain, hsum]
  exact hread _ n (Nat.le_add_right _ _) hn hb (by omega)

theorem readCompressed_succeeds {e : Extent} {plain : Bytes} {off : Nat}
    (hlen : off + e.len ≤ plain.length) (hlt : plain.length < 2 ^ 64) {p n : Nat}
    (hlo : e.fileOff ≤ p) (hhi : p + n ≤ e.fileOff + e.len) :
    Succeeds I (readCompressed plain off e.fileOff p n : FsM β Bytes) := by
  have hs : wadd off (p - e.fileOff) = off + (p - e.fileOff) := Nat.mod_eq_of_lt (by omega)
  have hsn : wadd (off + (p - e.fileOff)) n = off + (p - e.fileOff) + n :=
    Nat.mod_eq_of_lt (by omega)
  simp only [readCompressed, hs, hsn]
  rw [if_pos ⟨by omega, by omega⟩]
  exact Ensures.pure fun _ h => h

theorem emitExtent_flows (hsink : sink.Takes) {e : Extent} (h : fs.Readable I e) (stop pos : Nat) :
    Flows I (fs.emitExtent sink stop e pos) := by
  have hsat := satAdd_le e.fileOff e.len
  have hnone (lo hi : Nat) : Flows I (emit (β := β) sink stop lo hi pos none) :=
    emit_flows hsink (by rintro _ ⟨⟩)
  cases hk : e.kind with
  | prealloc =>
    simp only [emitExtent, hk]
    exact hnone _ _
  | inline raw =>
    obtain ⟨plain, hplain⟩ := h.inline raw hk
    simp only [emitExtent, hk, hplain, lift_ok_bind]
    apply emit_flows hsink
    rintro _ ⟨⟩ p n - - - -
    exact Ensures.pure fun _ h => h
  | regular a n off =>
    simp only [emitExtent, hk]
    split_ifs with ha hc
    · exact hnone _ _
    · obtain ⟨hbase, hend, hread⟩ := h.plain a n off hk ha hc
      rw [show checkedAdd a off = some (a + off) from if_pos hbase]
      apply emit_flows hsink
      rintro _ ⟨⟩ p m hlo hm hb hhi
      exact readPlain_succeeds hend hread (by omega) hm hb (by omega)
    · apply (ensures_onFst (h.compressed a n off hk ha hc)).bind
      intro plain s hs
      obtain ⟨hI, hlen, hlt⟩ := hs
      refine emit_flows hsink ?_ s hI
      rintro _ ⟨⟩ p m hlo - - hhi
      exact readCompressed_succeeds hlen hlt (by omega) (by omega)

theorem emitExtents_flows (hsink : sink.Takes) (stop : Nat) :
    ∀ {exts : List Extent} (pos : Nat), (∀ e ∈ exts, fs.Readable I e) →
      Flows I (fs.emitExtents sink stop exts pos)
  | [], _, _ => Ensures.pure fun _ h => h
  | e :: exts, pos, h => by
    have hrest : ∀ e' ∈ exts, fs.Readable I e' := fun e' he => h e' (List.mem_cons_of_mem _ he)
    unfold emitExtents
    split_ifs
    · exact Ensures.pure fun _ h => h
    · exact emitExtents_flows hsink stop pos hrest
    · apply (emitExtent_flows hsink (h e List.mem_cons_self) stop pos).bind
      intro pos
      exact emitExtents_flows hsink stop pos hrest

theorem emitFile_flows (hsink : sink.Takes) {exts : List Extent} (h : ∀ e ∈ exts, fs.Readable I e)
    (stop start : Nat) : Flows I (fs.emitFile sink stop exts start) := by
  apply (emitExtents_flows hsink stop start h).bind
  intro pos
  apply (emit_flows hsink (by rintro _ ⟨⟩)).bind
  intro _
  exact Ensures.pure fun _ h => h

/-- A range read of a file with an inode, whose extents are there and can be read. -/
theorem readRange_succeeds (hsink : sink.Takes) {loc : Loc} {i : Inode} {exts : List Extent}
    (hi : Yields I (fs.inode loc) (.ok i)) (he : Yields I (fs.extents loc) (.ok exts))
    (h : ∀ e ∈ exts, fs.Readable I e) (start stop : Nat) :
    Flows I (fs.readRange loc start stop sink) := by
  have hlayout : Yields I (fs.layout loc) (.ok (i, exts)) := hi.bind (he.bind (Yields.pure _))
  have hens : Ensures I (fs.layout loc) (fun a s => I s ∧ a = (i, exts)) (fun _ _ => False) := by
    intro s hs
    obtain ⟨s', hs', hrun⟩ := hlayout s hs
    rw [hrun]
    exact ⟨hs', rfl⟩
  apply (ensures_onFst hens).bind
  rintro a s ⟨hI, rfl⟩
  exact emitFile_flows hsink h _ _ s hI

end Fs

end BtrfsPeek
