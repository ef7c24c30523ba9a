import BtrfsPeek.Decompress

/-!
# What the codecs make of an extent

The LZO frame is read into its segments first (`lzoFrame`), whatever the extent
declares, and `lzo` is what `settle` takes of them. With that the three codecs are
compared:

* `decompress_lzoPack`: what a frame was made of is what it decodes to;
* `codecs_agree_iff`: LZO stops reading at a sector boundary, where the two
  streams read one byte more;
* `decompressInline_whole_iff`: an inline extent that decodes short is filled up.
-/

namespace BtrfsPeek

open Effect Bytes

variable (X : Crates)

/-! ## Frames and their segments -/

/-- The length of the segment whose header is at `pos`, and its bytes. -/
def lzoHeaded (src : Bytes) (sectorsize total pos : Nat) : Except Error (Nat × Bytes) := do
  let segLen ← lzoLE32 src pos
  bailIf (segLen = 0 ∨ pos + 4 + segLen > total)
    (.msg s!"lzo extent: segment of {segLen} bytes at offset {pos + 4} overruns the frame")
  let plain ← lzoSegment X src ⟨0, 0, sectorsize⟩ (pos + 4) segLen
  return (segLen, plain)

/-- What is skipped before a header at `pos`. -/
def padding (sectorsize pos : Nat) : Nat :=
  if sectorsize - pos % sectorsize < 4 then sectorsize - pos % sectorsize else 0

/-- The segments from `pos` on, and the error at which they end. -/
def lzoFrom (src : Bytes) (sectorsize total : Nat) : (fuel pos : Nat) → List Bytes × Option Error
  | 0, _ => ([], none)
  | fuel + 1, pos =>
    if pos < total ∧ pos + padding sectorsize pos < total then
      match lzoHeaded X src sectorsize total (pos + padding sectorsize pos) with
      | .error e => ([], some e)
      | .ok (segLen, plain) =>
        let rest := lzoFrom src sectorsize total fuel (pos + padding sectorsize pos + 4 + segLen)
        (plain :: rest.1, rest.2)
    else ([], none)

/-- All segments of a frame. -/
def lzoFrame (src : Bytes) (sectorsize : Nat) : Except Error (List Bytes × Option Error) := do
  let total ← lzoLE32 src 0
  bailIf (total < 4 ∨ total > src.length)
    (.msg s!"lzo extent: frame declares {total} bytes but the extent holds {src.length}")
  return lzoFrom X src sectorsize total total 4

/-- Segments are taken until there are `ramBytes` bytes. -/
def settle (ramBytes : Nat) (failure : Option Error) : (out : Bytes) → List Bytes → Except Error Bytes
  | out, [] =>
    if out.length < ramBytes then
      match failure with
      | none => .ok out
      | some e => .error e
    else .ok out
  | out, c :: cs => if out.length < ramBytes then settle ramBytes failure (out ++ c) cs else .ok out

variable {X}

theorem settle_of_le {ramBytes : Nat} {failure : Option Error} {out : Bytes} (cs : List Bytes)
    (h : ramBytes ≤ out.length) : settle ramBytes failure out cs = .ok out := by
  unfold settle
  cases cs <;> exact if_neg (Nat.not_lt.mpr h)

theorem settle_none (ramBytes : Nat) (out : Bytes) : settle ramBytes none out [] = .ok out := by
  rw [settle]
  split_ifs <;> rfl

/-- The loop over the frame takes what it needs of the segments. -/
theorem lzoSegments_eq (src : Bytes) (size : Size) (total : Nat) : ∀ (fuel pos : Nat) (out : Bytes),
    lzoSegments X src size total fuel pos out =
      settle size.ramBytes (lzoFrom X src size.sectorsize total fuel pos).2 out
        (lzoFrom X src size.sectorsize total fuel pos).1
  | 0, _, out => (settle_none _ _).symm
  | fuel + 1, pos, out => by
    rw [lzoSegments, lzoFrom]
    by_cases hout : out.length < size.ramBytes
    · by_cases hpos : pos < total
      · rw [if_pos ⟨hpos, hout⟩]
        have hskip : (if size.sectorsize - pos % size.sectorsize < 4 then
            pos + (size.sectorsize - pos % size.sectorsize) else pos) =
            pos + padding size.sectorsize pos := by
          unfold padding
          split_ifs <;> rfl
        dsimp only
        rw [hskip]
        generalize pos + padding size.sectorsize pos = p
        by_cases hp : p < total
        · rw [if_neg (Nat.not_le.mpr hp), if_pos ⟨hpos, hp⟩, lzoHeaded]
          cases lzoLE32 src p with
          | error e =>
            show Except.error e = settle size.ramBytes (some e) out []
            rw [settle, if_pos hout]
          | ok segLen =>
            show (bailIf (segLen = 0 ∨ p + 4 + segLen > total) _ >>= fun _ =>
              lzoSegment X src size (p + 4) segLen >>= fun plain =>
                lzoSegments X src size total fuel (p + 4 + segLen) (out ++ plain)) = _
            have hstep : lzoSegment X src ⟨0, 0, size.sectorsize⟩ (p + 4) segLen =
              lzoSegment X src size (p + 4) segLen := rfl
            simp only [bind, Except.bind, bailIf, hstep]
            split_ifs with hlen
            · show Except.error _ = settle size.ramBytes (some _) out []
              rw [settle, if_pos hout]
            · cases lzoSegment X src size (p + 4) segLen with
              | error e =>
                show Except.error e = settle size.ramBytes (some e) out []
                rw [settle, if_pos hout]
              | ok plain =>
                show lzoSegments X src size total fuel (p + 4 + segLen) (out ++ plain) =
                  settle _ _ out (plain :: _)
                rw [settle, if_pos hout]
                exact lzoSegments_eq src size total fuel _ _
        · rw [if_pos (Nat.not_lt.mp hp), if_neg fun h => hp h.2]
          exact (settle_none _ _).symm
      · rw [if_neg fun h => hpos h.1, if_neg fun h => hpos h.1]
        exact (settle_none _ _).symm
    · rw [if_neg fun h => hout h.2, settle_of_le _ (Nat.not_lt.mp hout)]

theorem lzo_eq (src : Bytes) (size : Size) : lzo X src size = (do
    let (cs, failure) ← lzoFrame X src size.sectorsize
    let out ← settle size.ramBytes failure [] cs
    finish out size "lzo") := by
  unfold lzo lzoFrame
  cases lzoLE32 src 0 with
  | error e => rfl
  | ok total =>
    simp only [bind, Except.bind, bailIf]
    split_ifs with h
    · rfl
    · dsimp only
      rw [lzoSegments_eq]
      rfl

/-! ## Sectors -/

/-- A plaintext cut into sectors, the last of which may be short. -/
inductive Sectors (sectorsize : Nat) : Bytes → List Bytes → Prop
  | nil : Sectors sectorsize [] []
  | last {c : Bytes} : c ≠ [] → c.length ≤ sectorsize → Sectors sectorsize c [c]
  | cons {c p : Bytes} {cs : List Bytes} : c.length = sectorsize → p ≠ [] →
      Sectors sectorsize p cs → Sectors sectorsize (c ++ p) (c :: cs)

theorem Sectors.length_le {s : Nat} {p : Bytes} {cs : List Bytes} (h : Sectors s p cs) :
    ∀ c ∈ cs, c.length ≤ s := by
  induction h with
  | nil => exact fun c hc => absurd hc List.not_mem_nil
  | last _ hlen => exact fun c hc => List.mem_singleton.mp hc ▸ hlen
  | cons hlen _ _ ih =>
    intro c hc
    rcases List.mem_cons.mp hc with rfl | hc
    · exact Nat.le_of_eq hlen
    · exact ih c hc

theorem Sectors.pos {s : Nat} {p : Bytes} {cs : List Bytes} (h : Sectors s p cs) (hp : p ≠ []) :
    0 < s := by
  induction h with
  | nil => exact absurd rfl hp
  | last hne hlen => exact (List.length_pos_iff.mpr hne).trans_le hlen
  | cons _ hne _ ih => exact ih hne

theorem Sectors.ne_nil {s : Nat} {p : Bytes} {cs : List Bytes} (h : Sectors s p cs) :
    ∀ c ∈ cs, c ≠ [] := by
  induction h with
  | nil => exact fun c hc => absurd hc List.not_mem_nil
  | last hne _ => exact fun c hc => List.mem_singleton.mp hc ▸ hne
  | cons hlen hne hr ih =>
    intro c hc
    rcases List.mem_cons.mp hc with rfl | hc
    · rw [← List.length_pos_iff, hlen]
      exact hr.pos hne
    · exact ih c hc

/-- A plaintext cut into sectors. -/
def cut (sectorsize : Nat) : (fuel : Nat) → Bytes → List Bytes
  | 0, _ => []
  | fuel + 1, p => if p = [] then [] else p.take sectorsize :: cut sectorsize fuel (p.drop sectorsize)

theorem sectors_cut {s : Nat} (hs : 0 < s) : ∀ {fuel : Nat} {p : Bytes}, p.length ≤ fuel →
    Sectors s p (cut s fuel p)
  | 0, p, h => by
    obtain rfl : p = [] := List.eq_nil_of_length_eq_zero (Nat.le_zero.mp h)
    exact .nil
  | fuel + 1, p, h => by
    rw [cut]
    split_ifs with hp
    · subst hp
      exact .nil
    · have hpos : 0 < p.length := List.length_pos_iff.mpr hp
      have hdrop : (p.drop s).length = p.length - s := List.length_drop
      have hrest : Sectors s (p.drop s) (cut s fuel (p.drop s)) :=
        sectors_cut hs (by rw [hdrop]; omega)
      by_cases hlast : p.drop s = []
      · have hlen : p.length ≤ s := List.drop_eq_nil_iff.mp hlast
        have hnil : cut s fuel [] = [] := by cases fuel <;> rfl
        rw [hlast, hnil, List.take_of_length_le hlen]
        exact .last hp hlen
      · have hlen : (p.take s).length = s := by
          have hlt : ¬ p.length ≤ s := fun h => hlast (List.drop_eq_nil_iff.mpr h)
          rw [List.length_take]
          omega
        have := Sectors.cons hlen hlast hrest
        rwa [List.take_append_drop] at this

theorem le_nextMultipleOf {s : Nat} (hs : 0 < s) (n : Nat) : n ≤ nextMultipleOf n s := by
  have h := Nat.div_add_mod (n + s - 1) s
  have hlt := Nat.mod_lt (n + s - 1) hs
  rw [nextMultipleOf, Nat.mul_comm]
  omega

theorem nextMultipleOf_le {s n m : Nat} (hs : 0 < s) (h : n ≤ m) (hm : s ∣ m) :
    nextMultipleOf n s ≤ m := by
  obtain ⟨k, rfl⟩ := hm
  have hk : (n + s - 1) / s < k + 1 := by
    rw [Nat.div_lt_iff_lt_mul hs, Nat.add_mul, Nat.mul_comm k s]
    omega
  rw [nextMultipleOf, Nat.mul_comm]
  exact Nat.mul_le_mul_left s (Nat.le_of_lt_succ hk)

theorem dvd_nextMultipleOf (n s : Nat) : s ∣ nextMultipleOf n s := Dvd.intro_left _ rfl

/-- Of whole sectors as many are taken as the declared bytes need. -/
theorem settle_sectors {s ramBytes : Nat} {p : Bytes} {cs : List Bytes} (h : Sectors s p cs) :
    ∀ {out : Bytes}, s ∣ out.length → out.length ≤ nextMultipleOf ramBytes s →
      settle ramBytes none out cs = .ok ((out ++ p).take (nextMultipleOf ramBytes s)) := by
  -- Where more is needed there is room for a sector.
  have hroom {out : Bytes} (hs : 0 < s) (hd : s ∣ out.length) (hlt : out.length < ramBytes) :
      out.length + s ≤ nextMultipleOf ramBytes s := by
    obtain ⟨k, hk⟩ := hd
    obtain ⟨m, hm⟩ := dvd_nextMultipleOf ramBytes s
    have hle := le_nextMultipleOf hs ramBytes
    rw [hm] at hle ⊢
    rw [hk] at hlt ⊢
    have hkm : k < m := Nat.lt_of_mul_lt_mul_left (Nat.lt_of_lt_of_le hlt hle)
    have := Nat.mul_le_mul_left s (Nat.succ_le_of_lt hkm)
    rw [Nat.mul_succ] at this
    exact this
  have hfull {out q : Bytes} (hs : 0 < s) (hd : s ∣ out.length) (hge : ramBytes ≤ out.length)
      (hle : out.length ≤ nextMultipleOf ramBytes s) :
      (out ++ q).take (nextMultipleOf ramBytes s) = out := by
    rw [Nat.le_antisymm (nextMultipleOf_le hs hge hd) hle, List.take_left]
  induction h with
  | nil =>
    intro out hd hle
    rw [settle_none, List.append_nil, List.take_of_length_le hle]
  | @last c hc hlen =>
    intro out hd hle
    have hs : 0 < s := (List.length_pos_iff.mpr hc).trans_le hlen
    rw [settle]
    split_ifs with hlt
    · have := hroom hs hd hlt
      rw [settle_none, List.take_of_length_le]
      rw [List.length_append]
      omega
    · rw [hfull hs hd (Nat.not_lt.mp hlt) hle]
  | @cons c p cs hlen hp hr ih =>
    intro out hd hle
    have hs : 0 < s := hr.pos hp
    rw [settle]
    split_ifs with hlt
    · have hlen' : (out ++ c).length = out.length + s := by rw [List.length_append, hlen]
      rw [ih (by rw [hlen']; exact Nat.dvd_add hd (Nat.dvd_refl s))
        (by rw [hlen']; exact hroom hs hd hlt), List.append_assoc]
    · rw [hfull hs hd (Nat.not_lt.mp hlt) hle]

/-- A frame of whole sectors is read up to the end of the sector that the declared
bytes end in. -/
theorem lzo_of_sectors {src p : Bytes} {size : Size} {cs : List Bytes}
    (hf : lzoFrame X src size.sectorsize = .ok (cs, none)) (h : Sectors size.sectorsize p cs) :
    lzo X src size = finish (p.take (nextMultipleOf size.ramBytes size.sectorsize)) size "lzo" := by
  rw [lzo_eq, hf]
  show (settle size.ramBytes none [] cs >>= fun out => finish out size "lzo") = _
  rw [settle_sectors h (Nat.dvd_zero _) (Nat.zero_le _), List.nil_append]
  rfl

/-! ## What a decoded extent comes to -/

/-- The size of an extent. -/
def extentSize (ramBytes sectorsize : Nat) (inline : Bool) : Size where
  ramBytes := ramBytes
  most := if inline then nextMultipleOf ramBytes sectorsize else ramBytes
  sectorsize := sectorsize

/-- What becomes of an extent that decodes to `p`: an error if that is more than it
may be or short by a sector, and else the declared bytes, with zeros for what is
missing. -/
def judged (p : Bytes) (size : Size) : Option Bytes :=
  if p.length > size.most ∨ size.ramBytes - p.length ≥ size.sectorsize then none
  else some (p.take size.ramBytes ++ List.replicate (size.ramBytes - p.length) 0)

theorem finish_toOption (out : Bytes) (size : Size) (what : String) :
    (finish out size what).toOption = judged out size := by
  have hshort : size.ramBytes - (out.take size.ramBytes).length = size.ramBytes - out.length := by
    rw [List.length_take]
    omega
  unfold finish judged
  dsimp only
  rw [hshort]
  by_cases h₁ : out.length > size.most
  · rw [if_pos h₁, if_pos (Or.inl h₁)]
    rfl
  · rw [if_neg h₁]
    by_cases h₂ : size.ramBytes - out.length ≥ size.sectorsize
    · rw [if_pos h₂, if_pos (Or.inr h₂)]
      rfl
    · rw [if_neg h₂, if_neg (not_or.mpr ⟨h₁, h₂⟩)]
      rfl

/-- A stream is judged by what it decodes to, of which it reads one byte past the most. -/
theorem stream_toOption (p src : Bytes) (size : Size) (what : String) :
    (stream ⟨p, none⟩ src size what).toOption = judged p size := by
  show (finish (p.take (size.most + 1)) size what).toOption = _
  rw [finish_toOption]
  by_cases h : p.length ≤ size.most
  · rw [List.take_of_length_le (by omega)]
  · have hlen : (p.take (size.most + 1)).length = size.most + 1 := by
      rw [List.length_take]
      omega
    unfold judged
    rw [if_pos (Or.inl (by omega)), if_pos (Or.inl (by omega))]

/-- A frame is judged by what is read of it. -/
theorem lzo_toOption {src p : Bytes} {size : Size} {cs : List Bytes}
    (hf : lzoFrame X src size.sectorsize = .ok (cs, none)) (h : Sectors size.sectorsize p cs) :
    (lzo X src size).toOption = judged (p.take (nextMultipleOf size.ramBytes size.sectorsize)) size := by
  rw [lzo_of_sectors hf h, finish_toOption]

section decode

variable {ramBytes sectorsize : Nat} (inline : Bool) (hram : ramBytes ≤ MAX_RAM_BYTES)
  (hs : sectorsize ≠ 0)

theorem decode_zero {algo : Nat} (src : Bytes) :
    (decode X algo src ramBytes 0 inline).toOption = none := by
  unfold decode bailIf
  rw [if_pos (rfl : 0 = 0)]
  by_cases h : ramBytes > MAX_RAM_BYTES
  · rw [if_pos h]
    rfl
  · rw [if_neg h]
    rfl

include hram hs

theorem decode_zlib (src : Bytes) : decode X 1 src ramBytes sectorsize inline =
    stream (X.zlib src) src (extentSize ramBytes sectorsize inline) "zlib" := by
  unfold decode bailIf
  rw [if_neg (Nat.not_lt.mpr hram), if_neg hs]
  rfl

theorem decode_lzo (src : Bytes) : decode X 2 src ramBytes sectorsize inline =
    lzo X src (extentSize ramBytes sectorsize inline) := by
  unfold decode bailIf
  rw [if_neg (Nat.not_lt.mpr hram), if_neg hs]
  rfl

theorem decode_zstd {src : Bytes} {d : Decoding} (h : X.zstd src = .ok d) :
    decode X 3 src ramBytes sectorsize inline =
      stream d src (extentSize ramBytes sectorsize inline) "zstd" := by
  unfold decode bailIf
  rw [if_neg (Nat.not_lt.mpr hram), if_neg hs]
  simp only [h]
  rfl

end decode

/-- What is read of a frame is judged as the whole, unless that is too much and the most
ends with a sector. -/
theorem judged_take_iff {p : Bytes} {ramBytes sectorsize : Nat} (inline : Bool)
    (hs : 0 < sectorsize) :
    judged (p.take (nextMultipleOf ramBytes sectorsize)) (extentSize ramBytes sectorsize inline) =
        judged p (extentSize ramBytes sectorsize inline) ↔
      ¬ ((extentSize ramBytes sectorsize inline).most < p.length ∧
        sectorsize ∣ (extentSize ramBytes sectorsize inline).most) := by
  set size := extentSize ramBytes sectorsize inline with hsize
  have hle := le_nextMultipleOf hs ramBytes
  have hmost : ramBytes ≤ size.most ∧ size.most ≤ nextMultipleOf ramBytes sectorsize := by
    rw [hsize, extentSize]
    cases inline
    · exact ⟨Nat.le_refl _, hle⟩
    · exact ⟨hle, Nat.le_refl _⟩
  by_cases hlen : p.length ≤ nextMultipleOf ramBytes sectorsize
  · rw [List.take_of_length_le hlen]
    refine iff_of_true rfl fun ⟨hlt, hd⟩ => ?_
    have := nextMultipleOf_le hs hmost.1 hd
    omega
  · have htake : (p.take (nextMultipleOf ramBytes sectorsize)).length =
        nextMultipleOf ramBytes sectorsize := by
      rw [List.length_take]
      omega
    have hnone : judged p size = none := if_pos (Or.inl (by omega))
    rw [hnone]
    by_cases hd : sectorsize ∣ size.most
    · -- The frame is read up to the most, and no further.
      have heq : size.most = nextMultipleOf ramBytes sectorsize :=
        Nat.le_antisymm hmost.2 (nextMultipleOf_le hs hmost.1 hd)
      refine iff_of_false ?_ fun h => h ⟨by omega, hd⟩
      unfold judged
      rw [if_neg]
      · exact Option.some_ne_none _
      · rw [htake, show size.ramBytes = ramBytes from rfl,
          show size.sectorsize = sectorsize from rfl]
        omega
    · have hne : size.most ≠ nextMultipleOf ramBytes sectorsize := by
        intro he
        exact hd (he ▸ dvd_nextMultipleOf _ _)
      refine iff_of_true ?_ fun h => hd h.2
      exact if_pos (Or.inl (by rw [htake]; omega))

/-- The three codecs judge what they decode in full alike, unless it is too much and the
most ends with a sector: LZO then takes it. -/
theorem codecs_agree_iff {zlibSrc lzoSrc zstdSrc p : Bytes} {ramBytes sectorsize : Nat}
    {cs : List Bytes} (inline : Bool) (hram : ramBytes ≤ MAX_RAM_BYTES)
    (hzlib : X.zlib zlibSrc = ⟨p, none⟩) (hlzo : lzoFrame X lzoSrc sectorsize = .ok (cs, none))
    (hcs : Sectors sectorsize p cs) (hzstd : X.zstd zstdSrc = .ok ⟨p, none⟩) :
    (∀ r ∈ [decode X 1 zlibSrc ramBytes sectorsize inline,
        decode X 2 lzoSrc ramBytes sectorsize inline, decode X 3 zstdSrc ramBytes sectorsize inline],
      r.toOption = judged p (extentSize ramBytes sectorsize inline)) ↔
    ¬ ((extentSize ramBytes sectorsize inline).most < p.length ∧
      sectorsize ∣ (extentSize ramBytes sectorsize inline).most) := by
  simp only [List.forall_mem_cons, List.not_mem_nil, false_implies, implies_true, and_true]
  by_cases hs : sectorsize = 0
  · subst hs
    have hp : p = [] := by
      by_contra hp
      exact absurd (hcs.pos hp) (Nat.lt_irrefl 0)
    subst hp
    have hnone : judged [] (extentSize ramBytes 0 inline) = none := if_pos (Or.inr (Nat.zero_le _))
    rw [decode_zero, decode_zero, decode_zero, hnone]
    exact iff_of_true ⟨rfl, rfl, rfl⟩ fun h => absurd h.1 (Nat.not_lt_zero _)
  · rw [decode_zlib inline hram hs, decode_lzo inline hram hs, decode_zstd inline hram hs hzstd, hzlib,
      stream_toOption, stream_toOption, lzo_toOption hlzo hcs]
    rw [← judged_take_iff inline (Nat.pos_of_ne_zero hs)]
    exact ⟨fun h => h.2.1, fun h => ⟨rfl, h, rfl⟩⟩

/-! ## Frames as they are written -/

section pack

variable (compress : Bytes → Bytes) (s : Nat)

/-- The segments of these sectors, the first of them written at `pos`: zeros up to the
next sector where a header does not fit, the length, and the compressed bytes. -/
def lzoBody : (pos : Nat) → List Bytes → Bytes
  | _, [] => []
  | pos, c :: cs =>
    List.replicate (padding s pos) 0 ++ (toLE 4 (compress c).length ++ (compress c ++
      lzoBody (pos + padding s pos + 4 + (compress c).length) cs))

/-- A frame of these sectors: its length and its segments. Some writers pad after the
last, too. -/
def lzoPack (cs : List Bytes) (padEnd : Bool) : Bytes :=
  let body := lzoBody compress s 4 cs
  let tail := if padEnd then padding s (4 + body.length) else 0
  toLE 4 (4 + body.length + tail) ++ (body ++ List.replicate tail 0)

variable {compress s}

theorem length_lzoPack (compress : Bytes → Bytes) (s : Nat) (cs : List Bytes) (padEnd : Bool) :
    (lzoPack compress s cs padEnd).length =
      4 + (lzoBody compress s 4 cs).length +
      if padEnd then padding s (4 + (lzoBody compress s 4 cs).length) else 0 := by
  simp only [lzoPack, List.length_append, length_toLE, List.length_replicate]
  omega

theorem padding_lt (s pos : Nat) : padding s pos < 4 := by
  unfold padding
  split_ifs <;> omega

theorem length_lzoBody (compress : Bytes → Bytes) (s : Nat) : ∀ (pos : Nat) (cs : List Bytes),
    5 * cs.length ≤ (lzoBody compress s pos cs).length + (cs.filter (compress · = [])).length ∧
    (lzoBody compress s pos cs).length ≤ 7 * cs.length + (cs.map compress).flatten.length
  | _, [] => ⟨Nat.le_refl _, Nat.le_refl _⟩
  | pos, c :: cs => by
    have ih := length_lzoBody compress s (pos + padding s pos + 4 + (compress c).length) cs
    have hpad := padding_lt s pos
    simp only [lzoBody, List.length_append, length_toLE, List.length_replicate, List.length_cons,
      List.map_cons, List.flatten_cons, List.filter_cons]
    constructor
    · split_ifs with hc
      · rw [List.length_cons]
        omega
      · have : 0 < (compress c).length := List.length_pos_iff.mpr (by simpa using hc)
        omega
    · omega

theorem lzoLE32_of_hasAt {src : Bytes} {off n : Nat} (h : HasAt src off (toLE 4 n))
    (hn : n < 2 ^ 32) : lzoLE32 src off = .ok n := by
  have hle := h.le
  have hslice := h.slice_eq
  rw [length_toLE] at hle hslice
  rw [lzoLE32, if_pos hle, hslice, ofLE_toLE_of_lt hn]

/-- The sector's segments can be told from what else there may be. -/
structure Packs (X : Crates) (compress : Bytes → Bytes) (s : Nat) : Prop where
  nonempty : ∀ c, c ≠ [] → c.length ≤ s → compress c ≠ []
  inverse : ∀ c, c ≠ [] → c.length ≤ s → X.lzo (compress c) s = .plain c

theorem lzoHeaded_of_hasAt {src c rest : Bytes} {total pos : Nat} (h : Packs X compress s)
    (hc : c ≠ []) (hlen : c.length ≤ s)
    (hat : HasAt src pos (toLE 4 (compress c).length ++ (compress c ++ rest)))
    (hfit : (compress c).length < 2 ^ 32) (htotal : pos + 4 + (compress c).length ≤ total) :
    lzoHeaded X src s total pos = .ok ((compress c).length, c) := by
  have hne : (compress c).length ≠ 0 := by
    intro h0
    exact h.nonempty c hc hlen (List.eq_nil_of_length_eq_zero h0)
  have hseg := hat.right.left.slice_eq
  rw [length_toLE] at hseg
  have hplain : lzoSegment X src ⟨0, 0, s⟩ (pos + 4) (compress c).length = .ok c := by
    unfold lzoSegment
    rw [hseg, h.inverse c hc hlen]
    exact if_neg (Nat.not_lt.mpr hlen)
  rw [lzoHeaded, lzoLE32_of_hasAt hat.left hfit]
  show (bailIf ((compress c).length = 0 ∨ _) _ >>= fun _ => lzoSegment X src ⟨0, 0, s⟩ (pos + 4)
    (compress c).length >>= fun plain => pure ((compress c).length, plain)) = _
  rw [bailIf, if_neg (not_or.mpr ⟨hne, Nat.not_lt.mpr htotal⟩), hplain]
  rfl

/-- The segments of a frame are read back. -/
theorem lzoFrom_lzoBody {src : Bytes} {total : Nat} (h : Packs X compress s) (hsize : total < 2 ^ 32) :
    ∀ {cs : List Bytes} {fuel pos : Nat}, (∀ c ∈ cs, c ≠ [] ∧ c.length ≤ s) →
      HasAt src pos (lzoBody compress s pos cs) → cs.length ≤ fuel →
      pos + (lzoBody compress s pos cs).length ≤ total →
      total ≤ pos + (lzoBody compress s pos cs).length +
        padding s (pos + (lzoBody compress s pos cs).length) →
      lzoFrom X src s total fuel pos = (cs, none)
  | [], fuel, pos, _, _, _, _, hend => by
    cases fuel with
    | zero => rfl
    | succ fuel =>
      simp only [lzoBody, List.length_nil, Nat.add_zero] at hend
      rw [lzoFrom, if_neg fun h => absurd h.2 (Nat.not_lt.mpr hend)]
  | c :: cs, fuel + 1, pos, hcs, hat, hfuel, hbegin, hend => by
    obtain ⟨hc, hlen⟩ := hcs c List.mem_cons_self
    rw [lzoBody] at hat hbegin hend
    simp only [List.length_append, List.length_replicate, length_toLE] at hbegin hend
    have hat := hat.right
    rw [List.length_replicate] at hat
    have hpos : 0 < (compress c).length := List.length_pos_iff.mpr (h.nonempty c hc hlen)
    have hroom : pos + padding s pos + 4 + (compress c).length ≤ total := by omega
    have hhead := lzoHeaded_of_hasAt h hc hlen hat (by omega) hroom
    have hrest := hat.right.right
    rw [length_toLE] at hrest
    have ih := lzoFrom_lzoBody h hsize (fun c' hc' => hcs c' (List.mem_cons_of_mem _ hc'))
      hrest (Nat.le_of_succ_le_succ hfuel) (by omega)
      (by
        have harith : pos + (padding s pos + (4 + ((compress c).length +
            (lzoBody compress s (pos + padding s pos + 4 + (compress c).length) cs).length))) =
          pos + padding s pos + 4 + (compress c).length +
            (lzoBody compress s (pos + padding s pos + 4 + (compress c).length) cs).length := by omega
        rw [harith] at hend
        exact hend)
    rw [lzoFrom, if_pos ⟨by omega, by omega⟩, hhead]
    dsimp only
    rw [ih]

theorem lzoFrame_lzoPack {cs : List Bytes} (h : Packs X compress s)
    (hcs : ∀ c ∈ cs, c ≠ [] ∧ c.length ≤ s) (padEnd : Bool) (rest : Bytes)
    (hsize : (lzoPack compress s cs padEnd).length < 2 ^ 32) :
    lzoFrame X (lzoPack compress s cs padEnd ++ rest) s = .ok (cs, none) := by
  have hlength := length_lzoPack compress s cs padEnd
  have hwhole : HasAt (lzoPack compress s cs padEnd ++ rest) 0
    (lzoPack compress s cs padEnd ++ rest) := .whole _
  have hat := hwhole.left
  have htotal : lzoLE32 (lzoPack compress s cs padEnd ++ rest) 0 =
      .ok (lzoPack compress s cs padEnd).length := by
    rw [hlength] at hsize ⊢
    exact lzoLE32_of_hasAt hat.left hsize
  have hbody := hat.right.left
  rw [length_toLE, Nat.zero_add] at hbody
  have hnone : (cs.filter (compress · = [])).length = 0 := by
    rw [List.length_eq_zero_iff, List.filter_eq_nil_iff]
    intro c hc
    obtain ⟨hne, hlen⟩ := hcs c hc
    simpa using h.nonempty c hne hlen
  have hfuel := (length_lzoBody compress s 4 cs).1
  have hpad : (if padEnd then padding s (4 + (lzoBody compress s 4 cs).length) else 0) ≤
      padding s (4 + (lzoBody compress s 4 cs).length) := by
    split_ifs
    · exact Nat.le_refl _
    · exact Nat.zero_le _
  have hfrom := lzoFrom_lzoBody h hsize hcs hbody
    (show cs.length ≤ (lzoPack compress s cs padEnd).length by omega) (by omega) (by omega)
  rw [lzoFrame, htotal]
  show (bailIf _ _ >>= fun _ => pure (lzoFrom _ _ _ _ _ _)) = _
  rw [bailIf, if_neg, hfrom]
  · rfl
  · rw [List.length_append]
    omega

end pack

/-- What an LZO frame was made of is what it decodes to, with zeros up to the declared
length, which is short of a sector more, and which an extent may have. -/
theorem decompress_lzoPack {compress : Bytes → Bytes} {sectorsize ramBytes : Nat} {p : Bytes}
    (hs : 0 < sectorsize) (h : Packs X compress sectorsize) (padEnd : Bool) (rest : Bytes)
    (hsize : (lzoPack compress sectorsize (cut sectorsize p.length p) padEnd).length < 2 ^ 32)
    (hle : p.length ≤ ramBytes) (hlt : ramBytes < p.length + sectorsize)
    (hram : ramBytes ≤ MAX_RAM_BYTES) :
    decompress X 2 (lzoPack compress sectorsize (cut sectorsize p.length p) padEnd ++ rest) ramBytes
      sectorsize = .ok (p ++ List.replicate (ramBytes - p.length) 0) := by
  have hcs := sectors_cut hs (Nat.le_refl p.length)
  have hframe := lzoFrame_lzoPack h (fun c hc => ⟨hcs.ne_nil c hc, hcs.length_le c hc⟩) padEnd rest hsize
  rw [decompress, decode_lzo false hram (Nat.ne_of_gt hs), lzo_of_sectors hframe hcs]
  have htake : p.take (nextMultipleOf ramBytes sectorsize) = p :=
    List.take_of_length_le (hle.trans (le_nextMultipleOf hs ramBytes))
  show finish (p.take (nextMultipleOf ramBytes sectorsize)) ⟨ramBytes, ramBytes, sectorsize⟩ "lzo" = _
  rw [htake, finish, if_neg (Nat.not_lt.mpr hle)]
  dsimp only
  rw [List.take_of_length_le hle, if_neg (by omega)]

/-! ### Streams without matches -/

/-- What `encode` makes the stream `b`, if anything does: it is `head` bytes in, and `tail` bytes
follow it. -/
def undo (encode : Bytes → Bytes) (head tail : Nat) (b : Bytes) : Option Bytes :=
  let c := (b.drop head).take (b.length - (head + tail))
  if encode c = b then some c else none

theorem undo_encode (encode : Bytes → Bytes) (c : Bytes) {u v : Bytes} (h : encode c = u ++ (c ++ v)) :
    undo encode u.length v.length (encode c) = some c := by
  have hlen : (encode c).length - (u.length + v.length) = c.length := by
    rw [h, List.length_append, List.length_append]
    omega
  have hc : ((encode c).drop u.length).take ((encode c).length - (u.length + v.length)) = c := by
    rw [hlen, h, List.drop_left, List.take_left]
  unfold undo
  dsimp only
  rw [hc, if_pos rfl]

/-- What a run of `n` literals begins with in an LZO stream. -/
def lzoRun (n : Nat) : Bytes :=
  if n ≤ 238 then [.ofNat (17 + n)]
  else List.replicate (1 + (n - 19) / 255) 0 ++ [.ofNat (1 + (n - 19) % 255)]

/-- An LZO stream of literals, with its end marker. -/
def lzoLiterals (c : Bytes) : Bytes := lzoRun c.length ++ (c ++ [17, 0, 0])

/-- Where the literals begin: after zeros and a byte that is not zero. -/
def lzoHead (b : Bytes) : Nat := (b.takeWhile (· = 0)).length + 1

/-- A zlib stream of one block that is stored, of less than 64 KiB. -/
def zlibStored (c : Bytes) : Bytes :=
  let sums := c.foldl (fun (a, b) x => ((a + x.toNat) % 65521, (b + a + x.toNat) % 65521)) (1, 0)
  [0x78, 0x01, 0x01] ++ (toLE 2 c.length ++ toLE 2 (2 ^ 16 - 1 - c.length)) ++
    (c ++ ((toLE 2 sums.2).reverse ++ (toLE 2 sums.1).reverse))

/-- A zstd frame of one raw block, of less than 256 bytes. -/
def zstdRaw (c : Bytes) : Bytes :=
  [0x28, 0xB5, 0x2F, 0xFD, 0x20, .ofNat c.length] ++ toLE 3 (1 + 8 * c.length) ++ (c ++ [])

/-- The decoders, of such streams. -/
def literal : Crates where
  crc32cAppend _ _ := 0
  -- where there is no input at all, there is no output
  zlib b := (undo zlibStored 7 4 b).elim ⟨[], if b = [] then none else some "corrupt deflate stream"⟩ fun c => ⟨c, none⟩
  zstd b := (undo zstdRaw 9 0 b).elim (.error "bad magic number") fun c => .ok ⟨c, none⟩
  lzo b _ := (undo lzoLiterals (lzoHead b) 3 b).elim (.failed "lookbehind overrun") .plain
  glob _ := .error "invalid glob"
  debugStr t := String.ofList t

theorem literal_zlib (c : Bytes) : literal.zlib (zlibStored c) = ⟨c, none⟩ := by
  have h := undo_encode zlibStored c rfl
  simp only [List.length_append, length_toLE, List.length_reverse] at h
  show (undo zlibStored 7 4 (zlibStored c)).elim _ _ = _
  rw [show undo zlibStored 7 4 (zlibStored c) = some c from h, Option.elim_some]

/-- A run of literals begins with zeros and a byte that is not. -/
theorem lzoRun_eq {n : Nat} (h : 0 < n) : ∃ (k : Nat) (x : UInt8), x ≠ 0 ∧ lzoRun n = List.replicate k 0 ++ [x] := by
  have hne {m : Nat} (hm : 0 < m) (hlt : m < 256) : UInt8.ofNat m ≠ 0 := by
    intro h0
    have := congrArg UInt8.toNat h0
    rw [UInt8.toNat_ofNat_of_lt' hlt] at this
    exact absurd this (Nat.ne_of_gt hm)
  unfold lzoRun
  split_ifs with hle
  · exact ⟨0, _, hne (by omega) (by omega), rfl⟩
  · exact ⟨_, _, hne (by omega) (by omega), rfl⟩

theorem lzoHead_literals {c : Bytes} (h : c ≠ []) : lzoHead (lzoLiterals c) = (lzoRun c.length).length := by
  obtain ⟨k, x, hx, hrun⟩ := lzoRun_eq (List.length_pos_iff.mpr h)
  rw [lzoHead, lzoLiterals, hrun, List.append_assoc, List.takeWhile_append_of_pos (by simp)]
  simp [hx]

theorem length_lzoRun (n : Nat) : (lzoRun n).length ≤ 2 + n / 255 := by
  unfold lzoRun
  split_ifs with hle
  · rw [List.length_singleton]
    omega
  · rw [List.length_append, List.length_replicate, List.length_singleton]
    omega

theorem length_lzoLiterals (c : Bytes) : (lzoLiterals c).length ≤ 5 + c.length + c.length / 255 := by
  have := length_lzoRun c.length
  simp only [lzoLiterals, List.length_append, List.length_cons, List.length_nil]
  omega

theorem literal_lzo {c : Bytes} (h : c ≠ []) (n : Nat) : literal.lzo (lzoLiterals c) n = .plain c := by
  have hundo := undo_encode lzoLiterals c rfl
  rw [← lzoHead_literals h] at hundo
  show (undo lzoLiterals (lzoHead (lzoLiterals c)) 3 (lzoLiterals c)).elim _ _ = _
  rw [show undo lzoLiterals (lzoHead (lzoLiterals c)) 3 (lzoLiterals c) = some c from hundo, Option.elim_some]

theorem length_literals {s : Nat} (hs : s ≤ 4096) : ∀ {cs : List Bytes}, (∀ c ∈ cs, c.length ≤ s) →
    (cs.map lzoLiterals).flatten.length ≤ cs.flatten.length + 21 * cs.length
  | [], _ => Nat.zero_le _
  | c :: cs, h => by
    have ih := length_literals hs fun c' hc' => h c' (List.mem_cons_of_mem _ hc')
    have hc := h c List.mem_cons_self
    have hlen := length_lzoLiterals c
    simp only [List.map_cons, List.flatten_cons, List.length_append, List.length_cons]
    omega

theorem packs_literals (s : Nat) : Packs literal lzoLiterals s where
  nonempty c _ _ h := by
    have hc := (List.append_eq_nil_iff.mp (List.append_eq_nil_iff.mp h).2).2
    exact absurd hc (by decide)
  inverse _ h _ := literal_lzo h s

/-- A sector of one byte over and over. -/
def sameSector : Bytes := List.replicate 512 0x61

/-- As LZO has it: 493 literals, then the last of them 19 times more. -/
def sameStream : Bytes := [0, 0, 220] ++ List.replicate 493 0x61 ++ [49, 0, 0, 17, 0, 0]

/-- The decoders of streams without matches, and of that one. -/
def matching : Crates :=
  { literal with lzo := fun b n => if b = sameStream then .plain sameSector else literal.lzo b n }

def lzoMatching (c : Bytes) : Bytes := if c = sameSector then sameStream else lzoLiterals c

theorem packs_matching (s : Nat) : Packs matching lzoMatching s where
  nonempty c hc hlen h := by
    unfold lzoMatching at h
    split_ifs at h with hsame
    · exact absurd h (List.cons_ne_nil _ _)
    · exact (packs_literals s).nonempty c hc hlen h
  inverse c hc hlen := by
    have hout (b : Bytes) : matching.lzo b s = if b = sameStream then .plain sameSector else literal.lzo b s := rfl
    unfold lzoMatching
    split_ifs with hsame
    · rw [hout, if_pos rfl, hsame]
    · have hne : lzoLiterals c ≠ sameStream := by
        intro h
        have hplain := literal_lzo hc 0
        have hfails : literal.lzo sameStream 0 = .failed "lookbehind overrun" := by decide +kernel
        rw [h, hfails] at hplain
        cases hplain
      rw [hout, if_neg hne, literal_lzo hc]

/-- Two segments, with zeros before the second one's header, of an extent that declares a byte
more. -/
theorem decompress_lzoPack_two : ∃ p : Bytes, p = sameSector ++ [0x61, 0x62, 0x63] ∧
    (lzoPack lzoMatching 512 (cut 512 p.length p) true).slice 507 9 = [17, 0, 0, 0, 0, 7, 0, 0, 0] ∧
    decompress matching 2 (lzoPack lzoMatching 512 (cut 512 p.length p) true ++ [0xFF]) (p.length + 1) 512 =
      .ok (p ++ List.replicate (p.length + 1 - p.length) 0) := by
  refine ⟨_, rfl, by decide +kernel, ?_⟩
  exact decompress_lzoPack (by decide) (packs_matching 512) true [0xFF] (by decide +kernel) (by decide +kernel)
    (by decide +kernel) (by decide +kernel)

theorem Sectors.length_mul_le {s : Nat} {p : Bytes} {cs : List Bytes} (h : Sectors s p cs) :
    s * cs.length ≤ p.length + s ∧ cs.flatten = p := by
  induction h with
  | nil => exact ⟨Nat.zero_le _, rfl⟩
  | last _ _ => exact ⟨by simp, List.flatten_singleton⟩
  | cons hlen _ _ ih =>
    rw [List.length_cons, List.length_append, List.flatten_cons, ih.2, Nat.mul_succ, hlen]
    exact ⟨by omega, rfl⟩

/-- No extent decodes to more than `MAX_RAM_BYTES`, although its frame may be sound. -/
theorem decompress_lzoPack_huge : ∃ (X : Crates) (compress : Bytes → Bytes) (p : Bytes) (ramBytes : Nat),
    p ≠ [] ∧ Packs X compress 4096 ∧
    (lzoPack compress 4096 (cut 4096 p.length p) true).length < 2 ^ 32 ∧ p.length ≤ ramBytes ∧
    ramBytes < p.length + 4096 ∧
    decompress X 2 (lzoPack compress 4096 (cut 4096 p.length p) true) ramBytes 4096 ≠
      .ok (p ++ List.replicate (ramBytes - p.length) 0) := by
  refine ⟨literal, lzoLiterals, List.replicate (2 ^ 30 + 1) 0x61, 2 ^ 30 + 1, ?_, packs_literals 4096,
    ?_, ?_, ?_, ?_⟩
  · intro h
    have hzero := (List.replicate_eq_nil_iff (0x61 : UInt8)).mp h
    omega
  · generalize hp : List.replicate (2 ^ 30 + 1) (0x61 : UInt8) = p
    have hlen : p.length = 2 ^ 30 + 1 := by rw [← hp, List.length_replicate]
    have hcs := sectors_cut (by decide : 0 < 4096) (Nat.le_refl p.length)
    obtain ⟨hmul, hflat⟩ := hcs.length_mul_le
    have hbody := (length_lzoBody lzoLiterals 4096 4 (cut 4096 p.length p)).2
    have hpad := padding_lt 4096 (4 + (lzoBody lzoLiterals 4096 4 (cut 4096 p.length p)).length)
    have hlits := length_literals (Nat.le_refl 4096) hcs.length_le
    rw [hflat] at hlits
    rw [length_lzoPack, if_pos rfl]
    omega
  · rw [List.length_replicate]
  · rw [List.length_replicate]
    omega
  · rw [decompress, decode, bailIf, if_pos (by decide)]
    exact fun h => nomatch h

/-- Four bytes that are judged alike. -/
theorem codecs_agree_four :
    [decode literal 1 [0x78, 0x01, 0x01, 4, 0, 251, 255, 1, 2, 3, 4, 0, 24, 0, 11] 4 512 false,
      decode literal 2 [16, 0, 0, 0, 8, 0, 0, 0, 21, 1, 2, 3, 4, 17, 0, 0] 4 512 false,
      decode literal 3 [0x28, 0xB5, 0x2F, 0xFD, 0x20, 4, 0x21, 0, 0, 1, 2, 3, 4] 4 512 false].map Except.toOption =
    List.replicate 3 (judged [1, 2, 3, 4] (extentSize 4 512 false)) := by
  have hzlib : literal.zlib [0x78, 0x01, 0x01, 4, 0, 251, 255, 1, 2, 3, 4, 0, 24, 0, 11] = ⟨[1, 2, 3, 4], none⟩ := by
    decide +kernel
  have hframe : lzoFrame literal [16, 0, 0, 0, 8, 0, 0, 0, 21, 1, 2, 3, 4, 17, 0, 0] 512 =
      .ok ([[1, 2, 3, 4]], none) := by
    decide +kernel
  have hzstd : literal.zstd [0x28, 0xB5, 0x2F, 0xFD, 0x20, 4, 0x21, 0, 0, 1, 2, 3, 4] = .ok ⟨[1, 2, 3, 4], none⟩ := by
    decide +kernel
  have hall := (codecs_agree_iff false (show 4 ≤ MAX_RAM_BYTES by decide) hzlib hframe
    (.last (by decide) (by decide)) hzstd).mpr (by decide)
  exact List.eq_replicate_iff.mpr ⟨rfl, List.forall_mem_map.mpr hall⟩

/-- An extent of one sector that decodes to a byte more. -/
theorem codecs_disagree : ∃ (X : Crates) (p src lzoSrc : Bytes) (cs : List Bytes),
    X.zlib src = ⟨p, none⟩ ∧ lzoFrame X lzoSrc 4096 = .ok (cs, none) ∧ Sectors 4096 p cs ∧
    p.length = 4097 ∧ (decode X 1 src 4096 4096 false).toOption = none ∧
    (decode X 2 lzoSrc 4096 4096 false).toOption = some (p.take 4096) := by
  generalize hp : List.replicate 4097 (0x61 : UInt8) = p
  have hlen : p.length = 4097 := by rw [← hp, List.length_replicate]
  have hcs := sectors_cut (by decide : 0 < 4096) (Nat.le_refl p.length)
  obtain ⟨hmul, hflat⟩ := hcs.length_mul_le
  have hsize : (lzoPack lzoLiterals 4096 (cut 4096 p.length p) false).length < 2 ^ 32 := by
    have hbody := (length_lzoBody lzoLiterals 4096 4 (cut 4096 p.length p)).2
    have hlits := length_literals (Nat.le_refl 4096) hcs.length_le
    rw [hflat] at hlits
    rw [length_lzoPack, if_neg Bool.false_ne_true]
    omega
  have hframe := lzoFrame_lzoPack (packs_literals 4096)
    (fun c hc => ⟨hcs.ne_nil c hc, hcs.length_le c hc⟩) false [] hsize
  rw [List.append_nil] at hframe
  have hmost : (extentSize 4096 4096 false).most = 4096 := rfl
  refine ⟨literal, p, zlibStored p, _, _, literal_zlib p, hframe, hcs, hlen, ?_, ?_⟩
  · rw [decode_zlib false (by decide) (by decide), literal_zlib]
    refine (stream_toOption ..).trans (if_pos (Or.inl ?_))
    rw [hlen, hmost]
    decide
  · rw [decode_lzo false (by decide) (by decide), lzo_toOption hframe hcs]
    have hnext : nextMultipleOf 4096 4096 = 4096 := by decide
    have htake : (p.take 4096).length = 4096 := by
      rw [List.length_take, hlen]
      decide
    show judged (p.take (nextMultipleOf 4096 4096)) (extentSize 4096 4096 false) = _
    rw [hnext, judged, htake, if_neg (by decide)]
    show some ((p.take 4096).take 4096 ++ List.replicate (4096 - 4096) 0) = _
    rw [List.take_take, Nat.min_self, Nat.sub_self, List.replicate_zero, List.append_nil]

/-! ## Inline extents -/

theorem judged_eq_some {p v : Bytes} {size : Size} (h : judged p size = some v) :
    p.length ≤ size.most ∧ size.ramBytes - p.length < size.sectorsize ∧
    v = p.take size.ramBytes ++ List.replicate (size.ramBytes - p.length) 0 := by
  unfold judged at h
  split_ifs at h with hbad
  obtain ⟨hmost, hshort⟩ := not_or.mp hbad
  exact ⟨by omega, by omega, (Option.some.inj h).symm⟩

theorem judged_of_short {p : Bytes} {size : Size} (hmost : p.length ≤ size.most)
    (hlt : size.ramBytes - p.length < size.sectorsize) :
    judged p size = some (p.take size.ramBytes ++ List.replicate (size.ramBytes - p.length) 0) := by
  apply if_neg
  omega

theorem toOption_eq_some {ε α : Type _} {r : Except ε α} {v : α} : r.toOption = some v ↔ r = .ok v := by
  cases r with
  | error e => exact ⟨(nomatch ·), (nomatch ·)⟩
  | ok w => exact ⟨fun h => congrArg _ (Option.some.inj h), fun h => congrArg _ (Except.ok.inj h)⟩

/-- Segments are taken from the front: all of them without an error, or enough. -/
theorem settle_ok {ramBytes : Nat} {failure : Option Error} : ∀ {out r : Bytes} {cs : List Bytes},
    settle ramBytes failure out cs = .ok r → r <+: out ++ cs.flatten ∧
      (ramBytes ≤ r.length ∨ r = out ++ cs.flatten ∧ failure = none)
  | out, r, [], h => by
    have hnil : out ++ ([] : List Bytes).flatten = out := List.append_nil out
    rw [hnil]
    unfold settle at h
    split_ifs at h with hlt
    · cases failure with
      | none =>
        obtain rfl : out = r := Except.ok.inj h
        exact ⟨List.prefix_refl out, Or.inr ⟨rfl, rfl⟩⟩
      | some e => exact nomatch h
    · obtain rfl : out = r := Except.ok.inj h
      exact ⟨List.prefix_refl out, Or.inl (Nat.not_lt.mp hlt)⟩
  | out, r, c :: cs, h => by
    rw [settle] at h
    split_ifs at h with hlt
    · have := settle_ok h
      rwa [List.append_assoc, ← List.flatten_cons] at this
    · obtain rfl : out = r := Except.ok.inj h
      exact ⟨List.prefix_append _ _, Or.inl (Nat.not_lt.mp hlt)⟩

/-- Where there are too few bytes all segments are taken. -/
theorem settle_short {ramBytes : Nat} : ∀ {out : Bytes} {cs : List Bytes},
    (out ++ cs.flatten).length < ramBytes → settle ramBytes none out cs = .ok (out ++ cs.flatten)
  | out, [], _ => by
    rw [settle_none]
    exact congrArg _ (List.append_nil out).symm
  | out, c :: cs, h => by
    rw [List.flatten_cons, ← List.append_assoc] at h ⊢
    have hlt : out.length < ramBytes := by
      rw [List.length_append, List.length_append] at h
      omega
    rw [settle, if_pos hlt]
    exact settle_short h

/-- What a compressed stream decodes to, and whether it then ends without an error. -/
def decoded (X : Crates) (algo : Nat) (src : Bytes) (sectorsize : Nat) : Option (Bytes × Bool) :=
  match algo with
  | 1 => some ((X.zlib src).data, (X.zlib src).failure.isNone)
  | 2 =>
    match lzoFrame X src sectorsize with
    | .error _ => none
    | .ok (cs, failure) => some (cs.flatten, failure.isNone)
  | 3 =>
    match X.zstd src with
    | .error _ => none
    | .ok d => some (d.data, d.failure.isNone)
  | _ => none

/-- A stream that ends with an error gives nothing. -/
theorem stream_ok {d : Decoding} {src v : Bytes} {size : Size} {what : String}
    (h : stream d src size what = .ok v) :
    d.failure.isNone = true ∧ judged d.data size = some v := by
  obtain ⟨data, failure⟩ := d
  cases failure with
  | none =>
    refine ⟨rfl, ?_⟩
    rw [← stream_toOption data src size what, h]
    rfl
  | some text =>
    rw [stream] at h
    dsimp only at h
    split_ifs at h with hlt
    have hlen : (data.take (size.most + 1)).length = size.most + 1 := by
      rw [List.length_take]
      omega
    have hnone : judged (data.take (size.most + 1)) size = none :=
      if_pos (Or.inl (by rw [hlen]; exact Nat.lt_succ_self _))
    rw [← finish_toOption _ _ what, h] at hnone
    exact nomatch hnone

/-- What an inline extent gives is judged by what is read of it: all of a stream, and of a
frame as much as the declared bytes need. -/
theorem decompressInline_ok {algo ramBytes sectorsize : Nat} {src v : Bytes}
    (h : decompressInline X algo src ramBytes sectorsize = .ok v) :
    ramBytes ≤ MAX_RAM_BYTES ∧
    ∃ p d ended, decoded X algo src sectorsize = some (d, ended) ∧ p <+: d ∧
      (ramBytes ≤ p.length ∨ p = d ∧ ended = true) ∧
      judged p (extentSize ramBytes sectorsize true) = some v := by
  obtain ⟨_, hram, h⟩ := except_bind_ok.mp h
  obtain ⟨_, hs, h⟩ := except_bind_ok.mp h
  refine ⟨Nat.not_lt.mp (bailIf_ok_iff.mp hram), ?_⟩
  dsimp only at h
  split at h
  · obtain ⟨hend, hv⟩ := stream_ok h
    exact ⟨_, _, _, rfl, List.prefix_refl _, Or.inr ⟨rfl, hend⟩, hv⟩
  · rw [lzo_eq] at h
    obtain ⟨⟨cs, failure⟩, hframe, h⟩ := except_bind_ok.mp h
    obtain ⟨out, hout, h⟩ := except_bind_ok.mp h
    obtain ⟨hfront, henough⟩ := settle_ok hout
    refine ⟨out, cs.flatten, failure.isNone, ?_, hfront, ?_, ?_⟩
    · rw [decoded, hframe]
    · refine henough.imp_right fun h => ⟨h.1, ?_⟩
      rw [h.2]
      rfl
    · rw [← finish_toOption _ _ "lzo", ← toOption_eq_some.mpr h]
      rfl
  · split at h
    · cases h
    · next d hd =>
      obtain ⟨hend, hv⟩ := stream_ok h
      refine ⟨_, d.data, _, ?_, List.prefix_refl _, Or.inr ⟨rfl, hend⟩, hv⟩
      rw [decoded, hd]
  · cases h

/-- What decodes in full to less than it declares, short of a sector, is given with zeros. -/
theorem decompressInline_short {algo ramBytes sectorsize : Nat} {src d : Bytes}
    (hram : ramBytes ≤ MAX_RAM_BYTES) (hd : decoded X algo src sectorsize = some (d, true))
    (hlt : d.length < ramBytes) (hshort : ramBytes < d.length + sectorsize) :
    decompressInline X algo src ramBytes sectorsize =
      .ok (d ++ List.replicate (ramBytes - d.length) 0) := by
  have hs : 0 < sectorsize := by omega
  have hle := le_nextMultipleOf hs ramBytes
  have hmost : (extentSize ramBytes sectorsize true).most = nextMultipleOf ramBytes sectorsize := rfl
  have hjudged : judged d (extentSize ramBytes sectorsize true) =
      some (d ++ List.replicate (ramBytes - d.length) 0) := by
    rw [judged_of_short (by omega) (show ramBytes - d.length < sectorsize by omega)]
    show some (d.take ramBytes ++ _) = _
    rw [List.take_of_length_le (Nat.le_of_lt hlt)]
    rfl
  have hstream (src : Bytes) {s : Decoding} {what : String} (he : (s.data, s.failure.isNone) = (d, true)) :
      stream s src (extentSize ramBytes sectorsize true) what =
        .ok (d ++ List.replicate (ramBytes - d.length) 0) := by
    obtain ⟨data, failure⟩ := s
    obtain ⟨rfl, hnone⟩ := Prod.mk.inj he
    obtain rfl : failure = none := Option.isNone_iff_eq_none.mp hnone
    rw [← toOption_eq_some, stream_toOption, hjudged]
  unfold decoded at hd
  split at hd
  · rw [decompressInline, decode_zlib true hram (Nat.ne_of_gt hs)]
    exact hstream src (Option.some.inj hd)
  · split at hd
    · exact nomatch hd
    · next cs failure hframe =>
      obtain ⟨rfl, hnone⟩ := Prod.mk.inj (Option.some.inj hd)
      obtain rfl : failure = none := Option.isNone_iff_eq_none.mp hnone
      rw [decompressInline, decode_lzo true hram (Nat.ne_of_gt hs), lzo_eq]
      show (lzoFrame X src sectorsize >>= _) = _
      rw [hframe]
      show (settle ramBytes none [] cs >>= fun out => finish out _ "lzo") = _
      rw [settle_short (by rwa [List.nil_append])]
      show finish cs.flatten _ "lzo" = _
      rw [← toOption_eq_some, finish_toOption, hjudged]
  · split at hd
    · exact nomatch hd
    · next z hz =>
      rw [decompressInline, decode_zstd true hram (Nat.ne_of_gt hs) hz]
      exact hstream src (Option.some.inj hd)
  · exact nomatch hd

/-- An inline extent is given only as what it decodes to, unless that is short of what it
declares by less than a sector. -/
theorem decompressInline_whole_iff {algo ramBytes sectorsize : Nat} {src : Bytes} :
    (∀ v, decompressInline X algo src ramBytes sectorsize = .ok v →
      ∃ d ended, decoded X algo src sectorsize = some (d, ended) ∧ ramBytes ≤ d.length ∧
        v = d.take ramBytes) ↔
    ¬ (ramBytes ≤ MAX_RAM_BYTES ∧ ∃ d, decoded X algo src sectorsize = some (d, true) ∧
      d.length < ramBytes ∧ ramBytes < d.length + sectorsize) := by
  constructor
  · intro hwhole ⟨hram, d, hd, hlt, hshort⟩
    obtain ⟨d', ended, hd', hle, -⟩ := hwhole _ (decompressInline_short hram hd hlt hshort)
    rw [hd] at hd'
    obtain ⟨rfl, -⟩ := Prod.mk.inj (Option.some.inj hd')
    omega
  · intro hnot v hv
    obtain ⟨hram, p, d, ended, hd, hfront, henough, hjudged⟩ := decompressInline_ok hv
    obtain ⟨-, hshort, rfl⟩ := judged_eq_some hjudged
    have hshort : ramBytes - p.length < sectorsize := hshort
    have hle : ramBytes ≤ p.length := by
      rcases henough with hle | ⟨rfl, rfl⟩
      · exact hle
      · by_contra hlt
        exact hnot ⟨hram, p, hd, by omega, by omega⟩
    refine ⟨d, ended, hd, hle.trans hfront.length_le, ?_⟩
    show p.take ramBytes ++ List.replicate (ramBytes - p.length) 0 = _
    rw [Nat.sub_eq_zero_of_le hle, List.replicate_zero, List.append_nil]
    obtain ⟨t, rfl⟩ := hfront
    rw [List.take_append_of_le_length hle]

/-- An inline extent of one byte whose stream is empty. -/
theorem decompressInline_filled : ∃ (X : Crates) (v : Bytes),
    decompressInline X 1 [] 1 4096 = .ok v ∧ v = [0] ∧
    ¬ ∃ d ended, decoded X 1 [] 4096 = some (d, ended) ∧ 1 ≤ d.length ∧ v = d.take 1 := by
  refine ⟨literal, [0], by decide, rfl, ?_⟩
  rintro ⟨d, ended, hd, hle, -⟩
  obtain ⟨rfl, -⟩ := Prod.mk.inj (Option.some.inj hd)
  exact absurd hle (by decide)

end BtrfsPeek
