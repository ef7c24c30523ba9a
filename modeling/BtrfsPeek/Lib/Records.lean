import BtrfsPeek.Lib.Bytes
import BtrfsPeek.Lib.Effect

/-!
# Strings of records

Records of any length, one after another, and a loop that parses them from an offset. A
record is written as a front, which a parser looks at, and a back, which it only skips
(`Layout`). A parser of one record (`Layout.Parses`) cannot tell whether the back is all
there, and nor can the loop (`Layout.loop_ok_iff`): it takes what is a string of whole
records, and what is one but for the end of the last one's back, and nothing else. The
two kinds are apart (`Layout.exact_iff`).
-/

/-- How a record is written. -/
structure Layout (ρ : Type) where
  front : ρ → Bytes
  /-- What is skipped. -/
  back : ρ → Bytes
  front_ne (r : ρ) : front r ≠ []

namespace Layout

open Effect

variable {ρ α ε : Type} (L : Layout ρ)

def enc (r : ρ) : Bytes := L.front r ++ L.back r

def encAll (rs : List ρ) : Bytes := rs.flatMap L.enc

/-- The string begins with the record, of which the end of the back may be missing where
the string ends. -/
def Begins (c : Bytes) (r : ρ) : Prop := L.front r <+: c ∧ (L.enc r <+: c ∨ c <+: L.enc r)

/-- The string is these records, the last of them whole or cut in its back. -/
inductive Spells : Bytes → List ρ → Prop
  | nil : Spells [] []
  | cut {r : ρ} {k : Nat} (h : k < (L.back r).length) : Spells (L.front r ++ (L.back r).take k) [r]
  | cons {r : ρ} {c : Bytes} {rs : List ρ} (h : Spells c rs) : Spells (L.enc r ++ c) (r :: rs)

/-- The string is some records and one that is cut in its back. -/
def Cut (c : Bytes) : Prop :=
  ∃ rs r k, k < (L.back r).length ∧ c = L.encAll rs ++ (L.front r ++ (L.back r).take k)

variable {L} {c d : Bytes} {r r' : ρ} {rs rs' : List ρ}

@[simp] theorem encAll_nil : L.encAll [] = [] := rfl

@[simp] theorem encAll_cons (r : ρ) (rs : List ρ) : L.encAll (r :: rs) = L.enc r ++ L.encAll rs := rfl

@[simp] theorem length_enc (r : ρ) :
    (L.enc r).length = (L.front r).length + (L.back r).length := List.length_append

theorem length_front_pos (r : ρ) : 0 < (L.front r).length := List.length_pos_of_ne_nil (L.front_ne r)

theorem begins_append (r : ρ) (c : Bytes) : L.Begins (L.enc r ++ c) r :=
  ⟨by rw [enc, List.append_assoc]; exact List.prefix_append _ _, .inl (List.prefix_append _ _)⟩

theorem begins_cut (r : ρ) (k : Nat) : L.Begins (L.front r ++ (L.back r).take k) r :=
  ⟨List.prefix_append _ _, .inr ((List.prefix_append_right_inj _).mpr (List.take_prefix _ _))⟩

/-- A string that has a front, and agrees with the back as far as it goes, begins with the
record. -/
theorem begins_of_front (h : c = L.front r ++ d) (hback : L.back r <+: d ∨ d <+: L.back r) :
    L.Begins c r := by
  rw [h]
  refine ⟨List.prefix_append _ _, ?_⟩
  rw [enc, List.prefix_append_right_inj, List.prefix_append_right_inj]
  exact hback

/-- What is skipped may be whatever is there, and anything where the string ends. -/
theorem exists_back (d : Bytes) (n : Nat) : ∃ t : Bytes, t.length = n ∧ (t <+: d ∨ d <+: t) := by
  rcases Nat.le_total n d.length with hle | hle
  · exact ⟨d.take n, by simp [hle], .inl (List.take_prefix _ _)⟩
  · exact ⟨d ++ List.replicate (n - d.length) 0, by simp; omega, .inr (List.prefix_append _ _)⟩

/-- What begins with a record is the whole record and more, or is cut in its back. -/
theorem begins_cases (h : L.Begins c r) : (∃ d, c = L.enc r ++ d) ∨
    ∃ k < (L.back r).length, c = L.front r ++ (L.back r).take k := by
  obtain ⟨⟨d, rfl⟩, ⟨e, he⟩ | hshort⟩ := h
  · exact .inl ⟨e, he.symm⟩
  · rw [enc, List.prefix_append_right_inj] at hshort
    have hd := List.prefix_iff_eq_take.mp hshort
    rcases Nat.lt_or_ge d.length (L.back r).length with hlt | hge
    · exact .inr ⟨d.length, hlt, by rw [← hd]⟩
    · left
      rw [List.take_of_length_le hge] at hd
      exact ⟨[], by rw [enc, hd, List.append_nil]⟩

theorem Spells.eq_nil (h : L.Spells [] rs) : rs = [] := by
  have hpos (r : ρ) := L.length_front_pos r
  generalize hc : ([] : Bytes) = c at h
  have hlen := congrArg List.length hc
  cases h with
  | nil => rfl
  | @cut r k h =>
    have := hpos r
    simp at hlen
    omega
  | @cons r c rs h =>
    have := hpos r
    simp at hlen
    omega

theorem spells_encAll (rs : List ρ) : L.Spells (L.encAll rs) rs := by
  induction rs with
  | nil => exact .nil
  | cons r rs ih => exact .cons ih

theorem spells_cut (rs : List ρ) {k : Nat} (h : k < (L.back r).length) :
    L.Spells (L.encAll rs ++ (L.front r ++ (L.back r).take k)) (rs ++ [r]) := by
  induction rs with
  | nil => exact .cut h
  | cons r' rs ih =>
    rw [encAll_cons, List.append_assoc]
    exact .cons ih

/-- What is a string of records is one of whole records, or is cut. -/
theorem Spells.cases (h : L.Spells c rs) : c = L.encAll rs ∨ L.Cut c ∧ c.length < (L.encAll rs).length := by
  induction h with
  | nil => exact .inl rfl
  | @cut r k h =>
    refine .inr ⟨⟨[], r, k, h, rfl⟩, ?_⟩
    simp
    omega
  | @cons r c rs _ ih =>
    rcases ih with rfl | ⟨⟨rs', r', k, hk, hc⟩, hlen⟩
    · exact .inl rfl
    · refine .inr ⟨⟨r :: rs', r', k, hk, ?_⟩, ?_⟩
      · rw [hc, encAll_cons, List.append_assoc]
      · simp only [encAll_cons, List.length_append]
        omega

/-! ## Parsing -/

/-- `parse` reads a record at an offset: what of it is wanted, and the offset of the
next. -/
structure Parses (L : Layout ρ) (val : ρ → α) (parse : Bytes → Nat → Except ε (α × Nat)) : Prop where
  ok_iff {b : Bytes} {off off' : Nat} {a : α} : off < b.length →
    (parse b off = .ok (a, off') ↔
      ∃ r, val r = a ∧ off' = off + (L.enc r).length ∧ L.Begins (b.drop off) r)

/-- The records from an offset on. -/
def loop (parse : Bytes → Nat → Except ε (α × Nat)) (b : Bytes) : (fuel off : Nat) → Except ε (List α)
  | 0, _ => .ok []
  | fuel + 1, off =>
    if off < b.length then do
      let (a, off) ← parse b off
      return a :: (← loop parse b fuel off)
    else .ok []

section parses

variable {val : ρ → α} {parse : Bytes → Nat → Except ε (α × Nat)} (h : L.Parses val parse)

include h

/-- What a string begins with is settled, as far as a parser sees. -/
theorem Parses.unique (hr : L.Begins c r) (hr' : L.Begins c r') :
    val r = val r' ∧ (L.enc r).length = (L.enc r').length := by
  have hc : 0 < c.length := (L.length_front_pos r).trans_le hr.1.length_le
  have hp := (h.ok_iff (b := c) hc).mpr ⟨r, rfl, rfl, hr⟩
  have hp' := (h.ok_iff (b := c) hc).mpr ⟨r', rfl, rfl, hr'⟩
  rw [hp] at hp'
  have heq := Prod.mk.inj (Except.ok.inj hp')
  exact ⟨heq.1, by omega⟩

/-- What is parsed from an offset on: the records there, the last of them whole or cut. -/
theorem loop_ok_iff {b : Bytes} : ∀ {fuel off : Nat} {as : List α}, b.length ≤ off + fuel →
    (loop parse b fuel off = .ok as ↔ ∃ rs, L.Spells (b.drop off) rs ∧ rs.map val = as)
  | 0, off, as, hle => by
    rw [List.drop_of_length_le (by omega)]
    constructor
    · rintro ⟨⟩
      exact ⟨[], .nil, rfl⟩
    · rintro ⟨rs, hrs, rfl⟩
      rw [hrs.eq_nil]
      rfl
  | fuel + 1, off, as, hle => by
    rw [loop]
    split_ifs with hoff
    · constructor
      · intro hrun
        obtain ⟨⟨a, off'⟩, hp, hrun⟩ := except_bind_ok.mp hrun
        obtain ⟨as', has, hrun⟩ := except_bind_ok.mp hrun
        obtain rfl := Except.ok.inj hrun
        obtain ⟨r, rfl, rfl, hr⟩ := (h.ok_iff hoff).mp hp
        have hpos := L.length_front_pos r
        have hlen := L.length_enc r
        obtain ⟨rs, hrs, rfl⟩ := (loop_ok_iff (by omega)).mp has
        rw [← List.drop_drop] at hrs
        rcases begins_cases hr with ⟨d, hd⟩ | ⟨k, hk, hd⟩
        · rw [hd, List.drop_left] at hrs
          rw [hd]
          exact ⟨r :: rs, .cons hrs, rfl⟩
        · rw [hd, List.drop_of_length_le (by simp)] at hrs
          rw [hd, hrs.eq_nil]
          exact ⟨[r], .cut hk, rfl⟩
      · rintro ⟨rs, hrs, rfl⟩
        -- A record is there, because something is.
        have hne : b.drop off ≠ [] := fun hnil => by
          have := congrArg List.length hnil
          simp at this
          omega
        generalize hc : b.drop off = c at hrs hne
        cases hrs with
        | nil => exact absurd rfl hne
        | @cut r k hk =>
          have hp := (h.ok_iff hoff).mpr ⟨r, rfl, rfl, hc ▸ begins_cut r k⟩
          have hlen := congrArg List.length hc
          simp only [List.length_drop, List.length_append, List.length_take] at hlen
          have hle : b.length ≤ off + (L.enc r).length + fuel := by
            rw [length_enc]
            omega
          have hrest : loop parse b fuel (off + (L.enc r).length) = .ok [] :=
            (loop_ok_iff hle).mpr ⟨[], ?_, rfl⟩
          · rw [hp]
            show (do return val r :: (← loop parse b fuel (off + (L.enc r).length))) = _
            rw [hrest]
            rfl
          · rw [List.drop_of_length_le (by rw [length_enc]; omega)]
            exact .nil
        | @cons r c rs hrs =>
          have hp := (h.ok_iff hoff).mpr ⟨r, rfl, rfl, hc ▸ begins_append r c⟩
          have hpos := L.length_front_pos r
          have hlen := L.length_enc r
          have hle : b.length ≤ off + (L.enc r).length + fuel := by omega
          have hrest : loop parse b fuel (off + (L.enc r).length) = .ok (rs.map val) :=
            (loop_ok_iff hle).mpr ⟨rs, ?_, rfl⟩
          · rw [hp]
            show (do return val r :: (← loop parse b fuel (off + (L.enc r).length))) = _
            rw [hrest]
            rfl
          · rw [← List.drop_drop, hc, List.drop_left]
            exact hrs
    · rw [List.drop_of_length_le (by omega)]
      constructor
      · rintro ⟨⟩
        exact ⟨[], .nil, rfl⟩
      · rintro ⟨rs, hrs, rfl⟩
        rw [hrs.eq_nil]
        rfl

/-- The string settles how long its records are, and what is wanted of them. -/
theorem Spells.unique (hrs : L.Spells c rs) : ∀ {rs' : List ρ}, L.Spells c rs' →
    rs.map val = rs'.map val ∧ (L.encAll rs).length = (L.encAll rs').length := by
  induction hrs with
  | nil =>
    intro rs' hrs'
    rw [hrs'.eq_nil]
    exact ⟨rfl, rfl⟩
  | @cut r k hk =>
    intro rs' hrs'
    generalize hc : L.front r ++ (L.back r).take k = c at hrs'
    have hbegin : L.Begins c r := hc ▸ begins_cut r k
    have hclen := congrArg List.length hc
    have hpos := L.length_front_pos r
    simp only [List.length_append, List.length_take] at hclen
    cases hrs' with
    | nil =>
      simp only [List.length_nil] at hclen
      omega
    | @cut r' k' hk' =>
      obtain ⟨hval, hlen⟩ := h.unique hbegin (begins_cut r' k')
      simp [hval, hlen]
    | @cons r' c' rs' hrs' =>
      obtain ⟨hval, hlen⟩ := h.unique hbegin (begins_append r' c')
      simp only [List.length_append, length_enc] at hclen hlen
      omega
  | @cons r c rs hrs ih =>
    intro rs' hrs'
    generalize hc : L.enc r ++ c = d at hrs'
    have hbegin : L.Begins d r := hc ▸ begins_append r c
    have hclen := congrArg List.length hc
    have hpos := L.length_front_pos r
    simp only [List.length_append, length_enc] at hclen
    cases hrs' with
    | nil =>
      simp only [List.length_nil] at hclen
      omega
    | @cut r' k hk =>
      obtain ⟨hval, hlen⟩ := h.unique hbegin (begins_cut r' k)
      simp only [List.length_append, length_enc, List.length_take] at hclen hlen
      omega
    | @cons r' c' rs' hrs' =>
      obtain ⟨hval, hlen⟩ := h.unique hbegin (begins_append r' c')
      have hinj := List.append_inj hc hlen
      obtain ⟨hvals, hlens⟩ := ih (hinj.2 ▸ hrs')
      simp [hval, hvals, hlens, hlen]

/-- Whole records are parsed. -/
theorem loop_encAll (rs : List ρ) :
    loop parse (L.encAll rs) (L.encAll rs).length 0 = .ok (rs.map val) :=
  (loop_ok_iff h (by omega)).mpr ⟨rs, spells_encAll rs, rfl⟩

/-- Only whole records are parsed, exactly where none is cut in its back. -/
theorem exact_iff (b : Bytes) :
    ((∃ as, loop parse b b.length 0 = .ok as) ↔ ∃ rs, b = L.encAll rs) ↔ ¬ L.Cut b := by
  have hloop (as : List α) : loop parse b b.length 0 = .ok as ↔ ∃ rs, L.Spells b rs ∧ rs.map val = as :=
    loop_ok_iff h (by omega)
  constructor
  · rintro hexact ⟨rs, r, k, hk, rfl⟩
    have hspells := spells_cut rs hk
    obtain ⟨rs', hrs'⟩ := hexact.mp ⟨_, (hloop _).mpr ⟨_, hspells, rfl⟩⟩
    have hlen := (hspells.unique h (hrs' ▸ spells_encAll rs')).2
    rw [← hrs'] at hlen
    simp [encAll] at hlen
    omega
  · intro hcut
    constructor
    · rintro ⟨as, has⟩
      obtain ⟨rs, hrs, -⟩ := (hloop as).mp has
      rcases hrs.cases with heq | ⟨hcut', -⟩
      · exact ⟨rs, heq⟩
      · exact absurd hcut' hcut
    · rintro ⟨rs, rfl⟩
      exact ⟨_, loop_encAll h rs⟩

end parses

end Layout
