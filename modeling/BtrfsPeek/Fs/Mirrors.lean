import BtrfsPeek.Fs.Cache

/-!
# The copies of an address

`mirrors` and what is read of them. The sums of `mirrors` wrap, and where one
does it may find an address in a chunk that does not have it: `checkedMirrors`
is the same with every sum checked, and `mirrors` is sound exactly where that
needs no check (`mirrors_sound_iff`).

A tree block is read from the first copy that is acceptable, but for one
defect: a copy with too many items ends the search (`readNode_fallsBack_iff`).
-/

namespace BtrfsPeek

open Effect

variable {β : Type}

namespace Fs

/-! ## Chunk mapping -/

section mapping

variable (fs : Fs β)

/-- The physical address of a stripe's copy of `logical`, unbounded. -/
def place (c : Chunk) (logical : Nat) (stripe : Nat × Nat) : Option (Device β × Nat) :=
  (fs.devs.lookup stripe.1).map fun d => (d, stripe.2 + (logical - c.start))

/-- The copies on the devices given, with every sum checked: none, where one
overflows. -/
def checkedCopies (c : Chunk) (logical : Nat) : List (Nat × Nat) → Option (List (Device β × Nat))
  | [] => some []
  | (devid, phys) :: stripes =>
    match fs.devs.lookup devid with
    | none => checkedCopies c logical stripes
    | some d => do
      let addr ← checkedAdd phys (logical - c.start)
      let rest ← checkedCopies c logical stripes
      return (d, addr) :: rest

/-- `mirrors` in a build that checks its sums: none, where one overflows. -/
def checkedMirrors (logical len : Nat) : Option (Except Error (List (Device β × Nat))) :=
  match fs.chunkAt logical with
  | none => some (.error (.msg s!"logical address {logical} (+{len}) is not mapped by any chunk"))
  | some c => do
    let stop ← checkedAdd logical len
    let last ← checkedAdd c.start c.length
    if ¬ stop ≤ last then
      return .error (.msg s!"logical address {logical} (+{len}) is not mapped by any chunk")
    else if c.has striped ∧ c.stripes.length > 1 then
      return .error (.msg s!"{c.profile} chunks striped across devices are not supported")
    else
      let out ← fs.checkedCopies c logical c.stripes
      return if out = [] then
        .error (.msg s!"the device holding logical address {logical} was not given (filesystem has {fs.sb.numDevices} devices; pass each with --device)")
      else .ok out

/-- The mapping of a request is right. -/
structure MapsRight (logical len : Nat) : Prop where
  /-- The chunk used has the request, and each copy is where it is said to be. -/
  ok : ∀ ms, fs.mirrors logical len = .ok ms → ∃ c, fs.chunkAt logical = some c ∧
    c.start ≤ logical ∧ logical + len ≤ c.start + c.length ∧
    ms = c.stripes.filterMap (fs.place c logical) ∧ ∀ m ∈ ms, m.2 < 2 ^ 64
  /-- No sum overflows. -/
  sums : (fs.checkedMirrors logical len).isSome
  /-- A chunk striped across devices is refused. -/
  striped : ∀ c, fs.chunkAt logical = some c → c.has striped → c.stripes.length > 1 →
    ∃ e, fs.mirrors logical len = .error e

/-- The sums fit, for the one chunk that may have the request: its ends and the
request's, and where it has the request and is not refused, the addresses of the
copies on the devices given. -/
def SumsFit (logical len : Nat) : Prop :=
  ∀ c, fs.chunkAt logical = some c → logical + len < 2 ^ 64 ∧ c.start + c.length < 2 ^ 64 ∧
    (logical + len ≤ c.start + c.length → ¬ (c.has Fs.striped ∧ c.stripes.length > 1) →
      ∀ stripe ∈ c.stripes, (fs.devs.lookup stripe.1).isSome → stripe.2 + (logical - c.start) < 2 ^ 64)

end mapping

variable {fs : Fs β} {logical len : Nat}

theorem start_le_of_chunkAt {c : Chunk} (h : fs.chunkAt logical = some c) : c.start ≤ logical := by
  have := List.mem_of_getLast? h
  simpa using (List.mem_filter.mp this).2

theorem checkedAdd_eq_some {a b n : Nat} : checkedAdd a b = some n ↔ a + b < 2 ^ 64 ∧ n = a + b := by
  unfold checkedAdd
  split_ifs with h
  · exact ⟨fun e => ⟨h, (Option.some.inj e).symm⟩, fun e => by rw [e.2]⟩
  · exact ⟨nofun, fun e => absurd e.1 h⟩

theorem checkedAdd_of_lt {a b : Nat} (h : a + b < 2 ^ 64) : checkedAdd a b = some (a + b) :=
  checkedAdd_eq_some.mpr ⟨h, rfl⟩

theorem wadd_of_lt {a b : Nat} (h : a + b < 2 ^ 64) : wadd a b = a + b := Nat.mod_eq_of_lt h

/-- Copies whose sums need no check are the copies. -/
theorem checkedCopies_eq_some {c : Chunk} : ∀ {stripes : List (Nat × Nat)} {out : List (Device β × Nat)},
    fs.checkedCopies c logical stripes = some out →
    out = stripes.filterMap (fs.place c logical) ∧ (∀ m ∈ out, m.2 < 2 ^ 64) ∧
    out = stripes.filterMap fun (devid, phys) =>
      (fs.devs.lookup devid).map fun d => (d, wadd phys (logical - c.start))
  | [], out, h => by
    cases h
    exact ⟨rfl, by simp, rfl⟩
  | (devid, phys) :: stripes, out, h => by
    unfold checkedCopies at h
    cases hd : fs.devs.lookup devid with
    | none =>
      rw [hd] at h
      obtain ⟨h₁, h₂, h₃⟩ := checkedCopies_eq_some h
      have hp : fs.place c logical (devid, phys) = none := by rw [place, hd, Option.map_none]
      refine ⟨?_, h₂, ?_⟩
      · rw [List.filterMap_cons_none hp, h₁]
      · rw [List.filterMap_cons_none (by simp only [hd, Option.map_none]), ← h₃]
    | some d =>
      rw [hd] at h
      obtain ⟨addr, ha, h⟩ := Option.bind_eq_some_iff.mp h
      obtain ⟨rest, hr, h⟩ := Option.bind_eq_some_iff.mp h
      obtain ⟨h₁, h₂, h₃⟩ := checkedCopies_eq_some hr
      obtain ⟨hlt, rfl⟩ := checkedAdd_eq_some.mp ha
      cases h
      have hp : fs.place c logical (devid, phys) = some (d, phys + (logical - c.start)) := by
        rw [place, hd, Option.map_some]
      refine ⟨?_, ?_, ?_⟩
      · rw [List.filterMap_cons_some hp, ← h₁]
      · intro m hm
        rcases List.mem_cons.mp hm with rfl | hm
        · exact hlt
        · exact h₂ m hm
      · rw [List.filterMap_cons_some (b := (d, phys + (logical - c.start)))
          (by simp only [hd, Option.map_some, wadd_of_lt hlt]), ← h₃]

theorem checkedCopies_isSome {c : Chunk} : ∀ {stripes : List (Nat × Nat)},
    (fs.checkedCopies c logical stripes).isSome ↔
      ∀ stripe ∈ stripes, (fs.devs.lookup stripe.1).isSome → stripe.2 + (logical - c.start) < 2 ^ 64
  | [] => by simp [checkedCopies]
  | (devid, phys) :: stripes => by
    have ih : (fs.checkedCopies c logical stripes).isSome ↔ _ := checkedCopies_isSome
    unfold checkedCopies
    rw [List.forall_mem_cons]
    cases hd : fs.devs.lookup devid with
    | none => simpa using ih
    | some d =>
      by_cases hlt : phys + (logical - c.start) < 2 ^ 64
      · rw [checkedAdd_of_lt hlt, and_iff_right fun _ => hlt, ← ih]
        cases fs.checkedCopies c logical stripes <;> exact Iff.rfl
      · rw [checkedAdd, if_neg hlt]
        exact ⟨nofun, fun h => absurd (h.1 rfl) hlt⟩

/-- Where no sum overflows, the check changes nothing. -/
theorem mirrors_of_checked {r : Except Error (List (Device β × Nat))}
    (h : fs.checkedMirrors logical len = some r) : fs.mirrors logical len = r := by
  unfold checkedMirrors at h
  unfold mirrors
  cases hc : fs.chunkAt logical with
  | none =>
    rw [hc] at h
    exact Option.some.inj h
  | some c =>
    rw [hc] at h
    obtain ⟨stop, hs, h⟩ := Option.bind_eq_some_iff.mp h
    obtain ⟨last, hl, h⟩ := Option.bind_eq_some_iff.mp h
    obtain ⟨hs', rfl⟩ := checkedAdd_eq_some.mp hs
    obtain ⟨hl', rfl⟩ := checkedAdd_eq_some.mp hl
    by_cases hle : logical + len ≤ c.start + c.length
    · rw [if_neg (not_not.mpr hle)] at h
      rw [Option.filter_some, if_pos (by simpa [wadd_of_lt hs', wadd_of_lt hl'] using hle)]
      dsimp only
      by_cases hst : c.has Fs.striped = true ∧ c.stripes.length > 1
      · rw [if_pos hst] at h ⊢
        exact Option.some.inj h
      · rw [if_neg hst] at h ⊢
        obtain ⟨out, ho, h⟩ := Option.bind_eq_some_iff.mp h
        have hout : fs.copies c logical = out := (checkedCopies_eq_some ho).2.2.symm
        rw [hout]
        exact Option.some.inj h
    · rw [if_pos hle] at h
      rw [Option.filter_some, if_neg (by simpa [wadd_of_lt hs', wadd_of_lt hl'] using hle)]
      exact Option.some.inj h

/-- No sum overflows exactly where they fit. -/
theorem checkedMirrors_isSome : (fs.checkedMirrors logical len).isSome ↔ fs.SumsFit logical len := by
  unfold checkedMirrors SumsFit
  cases hc : fs.chunkAt logical with
  | none => exact ⟨fun _ => nofun, fun _ => rfl⟩
  | some c =>
    simp only [Option.some.injEq, forall_eq']
    by_cases hs : logical + len < 2 ^ 64
    · by_cases hl : c.start + c.length < 2 ^ 64
      · rw [checkedAdd_of_lt hs, checkedAdd_of_lt hl, and_iff_right hs, and_iff_right hl]
        by_cases hle : logical + len ≤ c.start + c.length
        · by_cases hst : c.has Fs.striped = true ∧ c.stripes.length > 1
          · exact ⟨fun _ _ h => absurd hst h, fun _ => by
              simp only [Option.bind_eq_bind, Option.bind_some, if_pos hst]
              split_ifs
              rfl⟩
          · have hcopies : (fs.checkedCopies c logical c.stripes).isSome ↔ _ := checkedCopies_isSome
            simp only [hle, hst, not_true_eq_false, not_false_eq_true, if_false, true_imp_iff,
              ← hcopies, Option.bind_eq_bind, Option.bind_some]
            cases fs.checkedCopies c logical c.stripes <;> exact Iff.rfl
        · exact ⟨fun _ h => absurd h hle, fun _ => by
            simp only [Option.bind_eq_bind, Option.bind_some, if_pos hle]
            rfl⟩
      · rw [checkedAdd_of_lt hs, checkedAdd, if_neg hl]
        exact ⟨nofun, fun h => absurd h.2.1 hl⟩
    · rw [checkedAdd, if_neg hs]
      exact ⟨nofun, fun h => absurd h.1 hs⟩

theorem of_checkedMirrors_ok {ms : List (Device β × Nat)}
    (h : fs.checkedMirrors logical len = some (.ok ms)) : ∃ c, fs.chunkAt logical = some c ∧
      logical + len ≤ c.start + c.length ∧ ms = c.stripes.filterMap (fs.place c logical) ∧
      ∀ m ∈ ms, m.2 < 2 ^ 64 := by
  unfold checkedMirrors at h
  cases hc : fs.chunkAt logical with
  | none =>
    rw [hc] at h
    cases h
  | some c =>
    rw [hc] at h
    obtain ⟨stop, hs, h⟩ := Option.bind_eq_some_iff.mp h
    obtain ⟨last, hl, h⟩ := Option.bind_eq_some_iff.mp h
    obtain ⟨-, rfl⟩ := checkedAdd_eq_some.mp hs
    obtain ⟨-, rfl⟩ := checkedAdd_eq_some.mp hl
    split_ifs at h with hle hst
    · cases h
    · obtain ⟨out, ho, h⟩ := Option.bind_eq_some_iff.mp h
      obtain ⟨hplace, hlt, -⟩ := checkedCopies_eq_some ho
      by_cases hout : out = []
      · rw [if_pos hout] at h
        cases h
      · rw [if_neg hout] at h
        cases h
        exact ⟨c, rfl, hle, hplace, hlt⟩
    · cases h

/-- A chunk striped across devices is refused. -/
theorem mirrors_of_striped {c : Chunk} (hc : fs.chunkAt logical = some c) (hs : c.has Fs.striped)
    (hl : c.stripes.length > 1) : ∃ e, fs.mirrors logical len = .error e := by
  unfold mirrors
  rw [hc, Option.filter_some]
  split_ifs
  · simp only [if_pos (show c.has Fs.striped = true ∧ c.stripes.length > 1 from ⟨hs, hl⟩)]
    exact ⟨_, rfl⟩
  · exact ⟨_, rfl⟩

/-- A request is mapped right exactly where the sums fit. -/
theorem mirrors_sound_iff (fs : Fs β) (logical len : Nat) :
    fs.MapsRight logical len ↔ fs.SumsFit logical len := by
  refine ⟨fun h => checkedMirrors_isSome.mp h.sums, fun h => ?_⟩
  have hsome := checkedMirrors_isSome.mpr h
  obtain ⟨r, hr⟩ := Option.isSome_iff_exists.mp hsome
  refine ⟨fun ms hms => ?_, hsome, fun c hc hs hl => mirrors_of_striped hc hs hl⟩
  obtain rfl : r = .ok ms := (mirrors_of_checked hr).symm.trans hms
  obtain ⟨c, hc, hle, hplace, hlt⟩ := of_checkedMirrors_ok hr
  exact ⟨c, hc, start_le_of_chunkAt hc, hle, hplace, hlt⟩

/-- One chunk of 4 KiB is taken to have a request that starts at the last address
there is, since its end wraps. -/
theorem mirrors_wrap : ∃ fs : Fs Unit, fs.chunks = [⟨0, 4096, 0, [(1, 0)]⟩] ∧
    ¬ fs.MapsRight U64_MAX 4096 := by
  refine ⟨{ Image.fs [] with chunks := [⟨0, 4096, 0, [(1, 0)]⟩], ascending := List.pairwise_singleton _ _ }, rfl, fun h => ?_⟩
  obtain ⟨c, hc, -, hle, -⟩ := h.ok _ rfl
  have hc' : c = ⟨0, 4096, 0, [(1, 0)]⟩ := (Option.some.inj hc).symm
  rw [hc'] at hle
  exact absurd hle (by decide)

/-! ## The copies of a tree block -/

section blocks

variable (fs : Fs β)

/-- The block has the address and the checksum it should. -/
def Genuine (logical : Nat) (b : Bytes) : Prop := u64At b 48 = .ok logical ∧ fs.badSum b = .ok false

/-- A genuine block, with no more items than fit in one. -/
def Acceptable (logical : Nat) (b : Bytes) : Prop :=
  fs.Genuine logical b ∧ (⟨b⟩ : Node).nritems ≤ (fs.sb.nodesize - HEADER_SIZE) / 25

/-- A genuine block, with more. -/
def Crowded (logical : Nat) (b : Bytes) : Prop :=
  fs.Genuine logical b ∧ (fs.sb.nodesize - HEADER_SIZE) / 25 < (⟨b⟩ : Node).nritems

instance (logical : Nat) (b : Bytes) : Decidable (fs.Genuine logical b) :=
  inferInstanceAs (Decidable (_ ∧ _))

instance (logical : Nat) (b : Bytes) : Decidable (fs.Acceptable logical b) :=
  inferInstanceAs (Decidable (_ ∧ _))

instance (logical : Nat) (b : Bytes) : Decidable (fs.Crowded logical b) :=
  inferInstanceAs (Decidable (_ ∧ _))

/-- What a read of the copy comes to, each time. -/
def ReadsAs (n : Nat) (m : Device β × Nat) (r : Except IoError Bytes) : Prop :=
  ∀ s, ∃ s', m.1.read m.2 n s = done r s'

/-- `held` is what reads of the devices given come to, by where they begin: bytes or a
failure, whatever they are. -/
def Holding (held : Device β × Nat → Except IoError Bytes) : Prop :=
  ∀ id d phys, (id, d) ∈ fs.devs → phys < 2 ^ 64 → ReadsAs fs.sb.nodesize (d, phys) (held (d, phys))

/-- Where the copies of a block are on the devices given, unbounded, by the chunk that may have
it: nowhere, where the chunk does not have all of it, or is striped across devices. -/
def mapped (logical : Nat) : List (Device β × Nat) :=
  match fs.chunkAt logical with
  | none => []
  | some c =>
    if logical + fs.sb.nodesize ≤ c.start + c.length ∧ ¬ (c.has striped ∧ c.stripes.length > 1) then
      c.stripes.filterMap (fs.place c logical)
    else []

/-- What the copies of a block come to. Past the last address there is nothing to read. -/
def copiesOf (held : Device β × Nat → Except IoError Bytes) (logical : Nat) : List (Except IoError Bytes) :=
  ((fs.mapped logical).filter (·.2 < 2 ^ 64)).map held

/-- What is read for a block, at the addresses that `mirrors` computes: nothing, where it
refuses. -/
def tried (held : Device β × Nat → Except IoError Bytes) (logical : Nat) : List (Except IoError Bytes) :=
  match fs.mirrors logical fs.sb.nodesize with
  | .ok ms => ms.map held
  | .error _ => []

/-- What is cached is what some copy holds, and acceptable. -/
def CacheHeld (held : Device β × Nat → Except IoError Bytes) (s : FsState β) : Prop :=
  ∀ logical n, s.nodes.lookup logical = some n →
    ∃ b, .ok b ∈ fs.copiesOf held logical ∧ fs.Acceptable logical b ∧ n = ⟨b⟩

/-- Reading the block, whose copies come to `rs`, falls back to any acceptable copy. -/
structure FallsBack (rs : List (Except IoError Bytes)) (logical : Nat) (s : FsState β) : Prop where
  /-- It is read whenever a copy is acceptable. -/
  complete : (∃ b, .ok b ∈ rs ∧ fs.Acceptable logical b) →
    ∃ n, Result.value (fs.readNode logical s) = .ok n
  /-- What is read is an acceptable copy. -/
  right : ∀ n, Result.value (fs.readNode logical s) = .ok n →
    ∃ b, .ok b ∈ rs ∧ fs.Acceptable logical b ∧ n = ⟨b⟩
  /-- It is the first one, whatever is wrong with those before. -/
  first : s.nodes.lookup logical = none → ∀ pre b post, rs = pre ++ .ok b :: post →
    (∀ c, .ok c ∈ pre → ¬ fs.Acceptable logical c) → fs.Acceptable logical b →
    Result.value (fs.readNode logical s) = .ok ⟨b⟩

/-- The first acceptable copy. -/
def best (logical : Nat) : List (Except IoError Bytes) → Option Bytes
  | [] => none
  | .error _ :: rs => best logical rs
  | .ok b :: rs => if fs.Acceptable logical b then some b else best logical rs

/-- That, if no crowded one comes before it. -/
def heeded (logical : Nat) : List (Except IoError Bytes) → Option Bytes
  | [] => none
  | .error _ :: rs => heeded logical rs
  | .ok b :: rs =>
    if fs.Acceptable logical b then some b else if fs.Crowded logical b then none else heeded logical rs

/-- No crowded copy comes before the first acceptable one. -/
def NoneCrowds (logical : Nat) : List (Except IoError Bytes) → Prop
  | [] => True
  | .error _ :: rs => NoneCrowds logical rs
  | .ok b :: rs =>
    fs.Acceptable logical b ∨
    (fs.Crowded logical b → ∀ c, .ok c ∈ rs → ¬ fs.Acceptable logical c) ∧ NoneCrowds logical rs

/-- The block is found: what is cached is an acceptable copy. Of one that is not cached, no
copy crowds out the first acceptable one; and where a sum of `mirrors` overflows, what is at the
addresses that it computes comes to the same. -/
def Finds (held : Device β × Nat → Except IoError Bytes) (logical : Nat) (s : FsState β) : Prop :=
  match s.nodes.lookup logical with
  | some n => ∃ b, .ok b ∈ fs.copiesOf held logical ∧ fs.Acceptable logical b ∧ n = ⟨b⟩
  | none =>
    (fs.SumsFit logical fs.sb.nodesize → fs.NoneCrowds logical (fs.copiesOf held logical)) ∧
    (¬ fs.SumsFit logical fs.sb.nodesize →
      fs.heeded logical (fs.tried held logical) = fs.best logical (fs.copiesOf held logical))

/-- What the copies come to. -/
def settled (logical : Nat) : List (Except IoError Bytes) → Error → Except Error Node
  | [], e => .error e
  | .error e :: rs, _ => settled logical rs (.io e)
  | .ok b :: rs, _ =>
    if fs.Acceptable logical b then .ok ⟨b⟩
    else if fs.Crowded logical b then
      .error (.msg s!"tree block at {logical} claims {(⟨b⟩ : Node).nritems} items")
    else if u64At b 48 = .ok logical then
      settled logical rs (.msg s!"tree block at {logical} failed its checksum")
    else settled logical rs (.msg s!"tree block at {logical} has the wrong address in its header")

end blocks

section settled

variable {rs : List (Except IoError Bytes)} {n : Node}

/-- A copy that is neither acceptable nor crowded is passed over. -/
theorem settled_cons_of_not {b : Bytes} (ha : ¬ fs.Acceptable logical b)
    (hc : ¬ fs.Crowded logical b) (rs : List (Except IoError Bytes)) (e : Error) :
    ∃ e', fs.settled logical (.ok b :: rs) e = fs.settled logical rs e' := by
  rw [settled, if_neg ha, if_neg hc]
  split_ifs
  · exact ⟨_, rfl⟩
  · exact ⟨_, rfl⟩

/-- What the copies come to is the one that is heeded, if there is one. -/
theorem settled_ok_iff : ∀ {rs : List (Except IoError Bytes)} {e : Error},
    fs.settled logical rs e = .ok n ↔ ∃ b, fs.heeded logical rs = some b ∧ n = ⟨b⟩
  | [], _ => ⟨nofun, nofun⟩
  | .error e' :: rs, _ => by
    rw [settled, heeded]
    exact settled_ok_iff
  | .ok b :: rs, e => by
    by_cases ha : fs.Acceptable logical b
    · rw [settled, heeded, if_pos ha, if_pos ha]
      exact ⟨fun h => ⟨b, rfl, (Except.ok.inj h).symm⟩, fun ⟨c, hc, hn⟩ => by rw [hn, ← Option.some.inj hc]⟩
    · by_cases hc : fs.Crowded logical b
      · rw [settled, heeded, if_neg ha, if_pos hc, if_neg ha, if_pos hc]
        exact ⟨nofun, nofun⟩
      · obtain ⟨e', he⟩ := settled_cons_of_not ha hc rs e
        rw [he, heeded, if_neg ha, if_neg hc]
        exact settled_ok_iff

theorem best_eq_none : ∀ {rs : List (Except IoError Bytes)},
    fs.best logical rs = none ↔ ∀ b, .ok b ∈ rs → ¬ fs.Acceptable logical b
  | [] => ⟨fun _ => nofun, fun _ => rfl⟩
  | .error e :: rs => by
    rw [best, best_eq_none]
    simp
  | .ok b :: rs => by
    by_cases ha : fs.Acceptable logical b
    · rw [best, if_pos ha]
      exact ⟨nofun, fun h => absurd ha (h b List.mem_cons_self)⟩
    · rw [best, if_neg ha, best_eq_none]
      simp [ha]

/-- The first acceptable copy, and what is before it. -/
theorem best_eq_some : ∀ {rs : List (Except IoError Bytes)} {b : Bytes},
    fs.best logical rs = some b ↔ ∃ pre post, rs = pre ++ .ok b :: post ∧
      (∀ c, .ok c ∈ pre → ¬ fs.Acceptable logical c) ∧ fs.Acceptable logical b
  | [], b => ⟨nofun, fun ⟨pre, post, h, _⟩ => by cases pre <;> cases h⟩
  | .error e :: rs, b => by
    rw [best, best_eq_some]
    constructor
    · rintro ⟨pre, post, rfl, hpre, hb⟩
      exact ⟨.error e :: pre, post, rfl, by simpa using hpre, hb⟩
    · rintro ⟨pre, post, h, hpre, hb⟩
      cases pre with
      | nil => cases h
      | cons x pre =>
        obtain ⟨rfl, rfl⟩ := List.cons.inj h
        exact ⟨pre, post, rfl, fun c hc => hpre c (List.mem_cons_of_mem _ hc), hb⟩
  | .ok d :: rs, b => by
    by_cases ha : fs.Acceptable logical d
    · rw [best, if_pos ha]
      constructor
      · rintro ⟨⟩
        exact ⟨[], rs, rfl, nofun, ha⟩
      · rintro ⟨pre, post, h, hpre, hb⟩
        cases pre with
        | nil =>
          cases h
          rfl
        | cons x pre =>
          obtain ⟨rfl, rfl⟩ := List.cons.inj h
          exact absurd ha (hpre d List.mem_cons_self)
    · rw [best, if_neg ha, best_eq_some]
      constructor
      · rintro ⟨pre, post, rfl, hpre, hb⟩
        refine ⟨.ok d :: pre, post, rfl, fun c hc => ?_, hb⟩
        rcases List.mem_cons.mp hc with hcd | hc
        · rw [Except.ok.inj hcd]
          exact ha
        · exact hpre c hc
      · rintro ⟨pre, post, h, hpre, hb⟩
        cases pre with
        | nil =>
          cases h
          exact absurd hb ha
        | cons x pre =>
          obtain ⟨rfl, rfl⟩ := List.cons.inj h
          exact ⟨pre, post, rfl, fun c hc => hpre c (List.mem_cons_of_mem _ hc), hb⟩

theorem noneCrowds_of_none : ∀ {rs : List (Except IoError Bytes)},
    (∀ b, .ok b ∈ rs → ¬ fs.Acceptable logical b) → fs.NoneCrowds logical rs
  | [], _ => trivial
  | .error _ :: rs, h => show fs.NoneCrowds logical rs from
      noneCrowds_of_none fun b hb => h b (List.mem_cons_of_mem _ hb)
  | .ok _ :: _, h => .inr ⟨fun _ c hc => h c (List.mem_cons_of_mem _ hc),
      noneCrowds_of_none fun b hb => h b (List.mem_cons_of_mem _ hb)⟩

/-- The first acceptable copy is heeded exactly where none crowds it out. -/
theorem heeded_eq_best : ∀ {rs : List (Except IoError Bytes)},
    fs.heeded logical rs = fs.best logical rs ↔ fs.NoneCrowds logical rs
  | [] => ⟨fun _ => trivial, fun _ => rfl⟩
  | .error e :: rs => by
    rw [heeded, best]
    exact heeded_eq_best
  | .ok b :: rs => by
    rw [heeded, best, NoneCrowds]
    by_cases ha : fs.Acceptable logical b
    · simp only [ha, if_true, true_or]
    · rw [if_neg ha, if_neg ha, or_iff_right ha]
      by_cases hc : fs.Crowded logical b
      · rw [if_pos hc]
        constructor
        · intro h
          have hnone := best_eq_none.mp h.symm
          exact ⟨fun _ => hnone, noneCrowds_of_none hnone⟩
        · rintro ⟨h, -⟩
          exact (best_eq_none.mpr (h hc)).symm
      · rw [if_neg hc, heeded_eq_best]
        exact ⟨fun h => ⟨fun h' => absurd h' hc, h⟩, And.right⟩

/-- What is heeded is the best. -/
theorem best_of_heeded : ∀ {rs : List (Except IoError Bytes)} {b : Bytes},
    fs.heeded logical rs = some b → fs.best logical rs = some b
  | [], _, h => by cases h
  | .error _ :: rs, b, h => by
    have hbest : fs.best logical rs = some b := best_of_heeded h
    exact hbest
  | .ok c :: rs, b, h => by
    unfold heeded at h
    rw [best]
    split_ifs at h ⊢
    · exact h
    · exact best_of_heeded h

end settled

section runs

variable {held : Device β × Nat → Except IoError Bytes}

theorem badSum_isOk {b : Bytes} (h : b.length = fs.sb.nodesize) : ∃ bad, fs.badSum b = .ok bad := by
  have hn := fs.sb.nodesize_ok.2.1
  unfold badSum
  split_ifs
  · have hs : u32At b 0 = .ok _ := uintAt_of_le (by omega)
    rw [hs]
    exact ⟨_, rfl⟩
  · exact ⟨_, rfl⟩

/-- Trying the copies in turn comes to what they come to. -/
theorem nodeMirrors_run : ∀ {ms : List (Device β × Nat)} {rs : List (Except IoError Bytes)}
    (_ : List.Forall₂ (ReadsAs fs.sb.nodesize) ms rs) (e : Error) (s : FsState β),
    ∃ dev, fs.nodeMirrors logical ms e s = done (fs.settled logical rs e) { s with dev := dev }
  | _, _, .nil, e, s => ⟨s.dev, rfl⟩
  | (d, phys) :: ms, r :: rs, .cons h hs, e, s => by
    obtain ⟨dev, hd⟩ := h s.dev
    have hread := onDev_run hd
    have hatt : attempt (onDev (d.read phys fs.sb.nodesize)) s =
        .ok (r.mapError .io) { s with dev := dev } := by
      rw [attempt_run, hread, value_done, state_done]
    have next (e : Error) := nodeMirrors_run hs e { s with dev := dev }
    cases r with
    | error e' =>
      obtain ⟨dev', hn⟩ := next (.io e')
      refine ⟨dev', ?_⟩
      rw [nodeMirrors, bind_of_ok hatt]
      exact hn
    | ok b =>
      have hlen : b.length = fs.sb.nodesize := Device.length_of_read hd
      have hn := fs.sb.nodesize_ok.2.1
      obtain ⟨addr, haddr⟩ : ∃ addr, u64At b 48 = .ok addr := ⟨_, uintAt_of_le (by omega)⟩
      obtain ⟨bad, hbad⟩ := badSum_isOk hlen
      rw [nodeMirrors, bind_of_ok hatt]
      simp only [Except.mapError, haddr, hbad, lift_ok_bind, settled, Acceptable, Crowded, Genuine,
        Except.ok.injEq]
      by_cases ha : addr = logical
      · cases bad with
        | true =>
          obtain ⟨dev', hn⟩ := next (.msg s!"tree block at {logical} failed its checksum")
          exact ⟨dev', by simpa [ha] using hn⟩
        | false =>
          refine ⟨dev, ?_⟩
          by_cases hc : (⟨b⟩ : Node).nritems > (fs.sb.nodesize - HEADER_SIZE) / 25
          · have hc' : ¬ (⟨b⟩ : Node).nritems ≤ (fs.sb.nodesize - HEADER_SIZE) / 25 :=
              Nat.not_le.mpr hc
            simp only [ha, hc, hc', ne_eq, not_true_eq_false, if_false, if_true, and_true, and_false,
              Bool.false_eq_true]
            rfl
          · have hc' : (⟨b⟩ : Node).nritems ≤ (fs.sb.nodesize - HEADER_SIZE) / 25 :=
              Nat.le_of_not_lt hc
            simp only [ha, hc, hc', ne_eq, not_true_eq_false, if_false, if_true, and_true,
              Bool.false_eq_true]
            rfl
      · obtain ⟨dev', hn⟩ := next (.msg s!"tree block at {logical} has the wrong address in its header")
        exact ⟨dev', by simpa [ha] using hn⟩

/-- Where no sum overflows, the addresses that `mirrors` computes are those of the copies. -/
theorem tried_of_fit (h : fs.SumsFit logical fs.sb.nodesize) : fs.tried held logical = fs.copiesOf held logical := by
  unfold tried copiesOf mapped mirrors
  cases hc : fs.chunkAt logical with
  | none => rfl
  | some c =>
    obtain ⟨hstop, hlast, hplace⟩ := h c hc
    rw [Option.filter_some, wadd_of_lt hstop, wadd_of_lt hlast]
    by_cases hle : logical + fs.sb.nodesize ≤ c.start + c.length
    · rw [if_pos (decide_eq_true hle)]
      by_cases hst : c.has Fs.striped ∧ c.stripes.length > 1
      · have hnot : ¬ (logical + fs.sb.nodesize ≤ c.start + c.length ∧
            ¬ (c.has striped ∧ c.stripes.length > 1)) := fun h => h.2 hst
        simp only [if_pos hst, if_neg hnot]
        rfl
      · have hcopies : fs.copies c logical = c.stripes.filterMap (fs.place c logical) := by
          refine List.filterMap_congr fun ⟨devid, phys⟩ hs => ?_
          unfold place
          cases hd : fs.devs.lookup devid with
          | none => simp only [hd, Option.map_none]
          | some d => simp only [hd, Option.map_some, wadd_of_lt (hplace hle hst (devid, phys) hs (by rw [hd]; rfl))]
        have hfits : (c.stripes.filterMap (fs.place c logical)).filter (·.2 < 2 ^ 64) =
            c.stripes.filterMap (fs.place c logical) := by
          refine List.filter_eq_self.mpr fun m hm => ?_
          obtain ⟨stripe, hs, hm⟩ := List.mem_filterMap.mp hm
          obtain ⟨d, hd, rfl⟩ := Option.map_eq_some_iff.mp hm
          exact decide_eq_true (hplace hle hst stripe hs (by rw [hd]; rfl))
        simp only [if_neg hst, hcopies, if_pos (And.intro hle hst), hfits]
        by_cases hnone : c.stripes.filterMap (fs.place c logical) = []
        · rw [if_pos hnone, hnone]
          rfl
        · rw [if_neg hnone]
    · have hnot : ¬ (logical + fs.sb.nodesize ≤ c.start + c.length ∧
          ¬ (c.has striped ∧ c.stripes.length > 1)) := fun h => hle h.1
      rw [if_neg (by simpa using hle)]
      simp only [if_neg hnot]
      rfl

/-- A block that is not cached comes to what is read for it, and is cached if that is one. -/
theorem readNode_of_uncached (hheld : fs.Holding held) {s : FsState β} (hl : s.nodes.lookup logical = none) :
    ∃ e dev, fs.readNode logical s =
      match fs.settled logical (fs.tried held logical) e with
      | .ok n => .ok n (cacheNode logical n { s with dev := dev })
      | .error e => .error e { s with dev := dev } := by
  obtain ⟨e, dev, hf⟩ : ∃ e dev, fs.fetchNode logical s =
      done (fs.settled logical (fs.tried held logical) e) { s with dev := dev } := by
    unfold fetchNode tried
    cases hm : fs.mirrors logical fs.sb.nodesize with
    | error e => exact ⟨e, s.dev, rfl⟩
    | ok ms =>
      have hread : List.Forall₂ (ReadsAs fs.sb.nodesize) ms (ms.map held) := by
        refine List.forall₂_map_right_iff.mpr (List.forall₂_same.mpr fun m hmem => ?_)
        obtain ⟨⟨id, hd⟩, hp⟩ := mem_mirrors hm m hmem
        exact hheld id m.1 m.2 hd hp
      obtain ⟨dev, h⟩ := @nodeMirrors_run _ _ logical _ _ hread (.msg "unreadable") s
      exact ⟨_, dev, h⟩
  refine ⟨e, dev, ?_⟩
  unfold readNode
  rw [bind_of_ok (get_run s), hl]
  dsimp only
  rw [bind_run, hf]
  cases fs.settled logical (fs.tried held logical) e <;> rfl

theorem readNode_of_cached {s : FsState β} {n : Node} (hl : s.nodes.lookup logical = some n) :
    fs.readNode logical s = .ok n s := by
  unfold readNode
  rw [bind_of_ok (get_run s), hl]
  rfl

/-- An uncached block is read as the copy that is heeded of those tried. -/
theorem readNode_uncached_iff (hheld : fs.Holding held) {s : FsState β} (hl : s.nodes.lookup logical = none)
    {n : Node} : Result.value (fs.readNode logical s) = .ok n ↔
      ∃ b, fs.heeded logical (fs.tried held logical) = some b ∧ n = ⟨b⟩ := by
  obtain ⟨e, dev, hr⟩ := readNode_of_uncached hheld hl
  have hv : Result.value (fs.readNode logical s) = fs.settled logical (fs.tried held logical) e := by
    rw [hr]
    cases fs.settled logical (fs.tried held logical) e <;> rfl
  rw [hv, settled_ok_iff]

/-- Where no sum overflows for any block, what a read caches is what a copy holds. -/
theorem cacheHeld_readNode (hheld : fs.Holding held) (hfit : ∀ p, fs.SumsFit p fs.sb.nodesize)
    {s : FsState β} (hs : fs.CacheHeld held s) (logical : Nat) :
    fs.CacheHeld held (Result.state (fs.readNode logical s)) := by
  cases hl : s.nodes.lookup logical with
  | some n => rwa [readNode_of_cached hl]
  | none =>
    obtain ⟨e, dev, hr⟩ := readNode_of_uncached hheld hl
    rw [hr]
    cases hv : fs.settled logical (fs.tried held logical) e with
    | error e' => exact hs
    | ok n =>
      intro p m hm
      by_cases hp : p = logical
      · subst hp
        simp only [Result.state_ok, cacheNode, List.lookup_cons, beq_self_eq_true] at hm
        obtain rfl := Option.some.inj hm
        obtain ⟨b, hb, rfl⟩ := settled_ok_iff.mp hv
        rw [tried_of_fit (hfit p)] at hb
        have hbest : fs.best p (fs.copiesOf held p) = some b := best_of_heeded hb
        obtain ⟨pre, post, hsplit, -, hacc⟩ := best_eq_some.mp hbest
        exact ⟨b, by rw [hsplit]; exact List.mem_append_right _ List.mem_cons_self, hacc, rfl⟩
      · simp only [Result.state_ok, cacheNode, List.lookup_cons, beq_eq_false_iff_ne.mpr hp] at hm
        split_ifs at hm
        · cases hm
        · exact hs p m hm

/-- An uncached block falls back to any acceptable copy exactly where what is heeded of those
tried is the best of them. -/
theorem fallsBack_uncached_iff (hheld : fs.Holding held) {s : FsState β} (hl : s.nodes.lookup logical = none) :
    fs.FallsBack (fs.copiesOf held logical) logical s ↔
      fs.heeded logical (fs.tried held logical) = fs.best logical (fs.copiesOf held logical) := by
  constructor
  · intro h
    cases hbest : fs.best logical (fs.copiesOf held logical) with
    | some b =>
      obtain ⟨pre, post, hsplit, hpre, hb⟩ := best_eq_some.mp hbest
      obtain ⟨c, hc, hn⟩ := (readNode_uncached_iff hheld hl).mp (h.first hl pre b post hsplit hpre hb)
      rw [hc, Node.mk.inj hn]
    | none =>
      cases hheeded : fs.heeded logical (fs.tried held logical) with
      | none => rfl
      | some c =>
        obtain ⟨b, hb, ha, -⟩ := h.right ⟨c⟩ ((readNode_uncached_iff hheld hl).mpr ⟨c, hheeded, rfl⟩)
        exact absurd ha (best_eq_none.mp hbest b hb)
  · intro h
    refine ⟨fun ⟨b, hb, ha⟩ => ?_, fun n hn => ?_, fun _ pre b post hsplit hpre hb => ?_⟩
    · cases hbest : fs.best logical (fs.copiesOf held logical) with
      | none => exact absurd ha (best_eq_none.mp hbest b hb)
      | some c => exact ⟨⟨c⟩, (readNode_uncached_iff hheld hl).mpr ⟨c, h.trans hbest, rfl⟩⟩
    · obtain ⟨b, hb, rfl⟩ := (readNode_uncached_iff hheld hl).mp hn
      obtain ⟨pre, post, hsplit, -, hacc⟩ := best_eq_some.mp (h.symm.trans hb)
      exact ⟨b, by rw [hsplit]; exact List.mem_append_right _ List.mem_cons_self, hacc, rfl⟩
    · have hbest := best_eq_some.mpr ⟨pre, post, hsplit, hpre, hb⟩
      exact (readNode_uncached_iff hheld hl).mpr ⟨b, h.trans hbest, rfl⟩

/-- Reading a tree block, from devices that hold anything, falls back to any acceptable copy
exactly where the block is found. -/
theorem readNode_fallsBack_iff (hheld : fs.Holding held) (logical : Nat) (s : FsState β) :
    fs.FallsBack (fs.copiesOf held logical) logical s ↔ fs.Finds held logical s := by
  unfold Finds
  cases hl : s.nodes.lookup logical with
  | some n =>
    constructor
    · intro h
      exact h.right n (by rw [readNode_of_cached hl]; rfl)
    · rintro hn
      refine ⟨fun _ => ⟨n, by rw [readNode_of_cached hl]; rfl⟩, fun m hm => ?_, fun h => ?_⟩
      · rw [readNode_of_cached hl] at hm
        cases hm
        exact hn
      · rw [hl] at h
        cases h
  | none =>
    dsimp only
    rw [fallsBack_uncached_iff hheld hl]
    by_cases hfit : fs.SumsFit logical fs.sb.nodesize
    · rw [tried_of_fit hfit, heeded_eq_best]
      exact ⟨fun h => ⟨fun _ => h, fun h' => absurd hfit h'⟩, fun h => h.1 hfit⟩
    · exact ⟨fun h => ⟨fun h' => absurd h' hfit, fun _ => h⟩, fun h => h.2 hfit⟩

end runs

/-! ## Devices of fixed content -/

/-- Devices of fixed content read the same each time. -/
theorem exists_holding (hfs : fs.Honest) : ∃ held, fs.Holding held := by
  have hread : ∀ m : Device β × Nat, ∃ r, (∃ id, (id, m.1) ∈ fs.devs) → m.2 < 2 ^ 64 →
      ReadsAs fs.sb.nodesize m r := by
    intro m
    by_cases hd : ∃ id, (id, m.1) ∈ fs.devs
    · obtain ⟨id, hd⟩ := hd
      obtain ⟨c, hc⟩ := hfs _ hd
      exact ⟨_, fun _ hp s => m.1.read_of_holds hc _ hp s⟩
    · exact ⟨.ok [], fun h => absurd h hd⟩
  choose held hheld using hread
  exact ⟨held, fun id d phys hd hp => hheld (d, phys) ⟨id, hd⟩ hp⟩

end Fs

namespace Image

/-- Two copies of a block, the first with more items than fit in it. -/
def crowded : Spans := [(0, header 0 200 0), (4096 - 101, header 0 0 0)]

/-- A filesystem on it that maps the block to both. -/
def dupFs (s : Spans) : Fs Unit :=
  { fs s with chunks := [⟨0, 4096, 2 ^ 5, [(1, 0), (1, 4096)]⟩], ascending := List.pairwise_singleton _ _ }

theorem honest_fs (s : Spans) : (fs s).Honest := by
  intro x hx
  cases List.mem_singleton.mp hx
  exact ⟨s.content SIZE (by decide), s.holds_backing SIZE (by decide)⟩

end Image

/-- The tree block of an image, none of whose copies is crowded. -/
theorem Fs.readNode_fallsBack_image : ∃ held, (Image.fs (Image.twoNames 1)).Holding held ∧
    ((Image.fs (Image.twoNames 1)).FallsBack ((Image.fs (Image.twoNames 1)).copiesOf held Image.FS_TREE)
        Image.FS_TREE (.empty ()) ↔
      (Image.fs (Image.twoNames 1)).Finds held Image.FS_TREE (.empty ())) := by
  obtain ⟨held, hheld⟩ := Fs.exists_holding (Image.honest_fs (Image.twoNames 1))
  exact ⟨held, hheld, Fs.readNode_fallsBack_iff hheld Image.FS_TREE (.empty ())⟩

open Image in
set_option maxRecDepth 10000 in
/-- The second copy is acceptable, but the first ends the search. -/
theorem Fs.readNode_crowded : ∃ held, (dupFs crowded).Holding held ∧
    ¬ (dupFs crowded).FallsBack ((dupFs crowded).copiesOf held 0) 0 (.empty ()) := by
  have hhonest : (dupFs crowded).Honest := honest_fs crowded
  obtain ⟨held, hheld⟩ := Fs.exists_holding hhonest
  refine ⟨held, hheld, fun h => ?_⟩
  have hread : Result.value ((⟨"image", crowded.backing SIZE⟩ : Device Unit).read 4096 4096 ()) =
      .ok (crowded.read 4096 4096) := by decide +kernel
  have hacc : (dupFs crowded).Acceptable 0 (crowded.read 4096 4096) := by decide +kernel
  have hbad : (Result.value ((dupFs crowded).readNode 0 (.empty ()))).toOption = none := by
    decide +kernel
  have hheld₂ : held (⟨"image", crowded.backing SIZE⟩, 4096) = .ok (crowded.read 4096 4096) := by
    obtain ⟨s', hs'⟩ := hheld 1 ⟨"image", crowded.backing SIZE⟩ 4096 (.head _) (by decide) ()
    have hv := congrArg Result.value hs'
    rw [value_done] at hv
    exact hv.symm.trans hread
  have hmem : .ok (crowded.read 4096 4096) ∈ (dupFs crowded).copiesOf held 0 := by
    rw [← hheld₂]
    exact List.mem_map_of_mem (List.mem_cons_of_mem _ List.mem_cons_self)
  obtain ⟨n, hn⟩ := h.complete ⟨_, hmem, hacc⟩
  rw [hn] at hbad
  cases hbad

end BtrfsPeek
