import BtrfsPeek.Lib.Utf8
import BtrfsPeek.Lib.Decimal
import Mathlib.Data.List.TakeWhile

/-!
# Updates of the service

What an UPDATE came to and its text, from `helper/update.rs`, with the version
that the text of an installed update names. `installedVersion_installed` is the
round trip: a `Version` is made by `parse` only, so that its numbers have at most
19 digits, and what it displays is parsed back. `parse_eq_some_iff` and
`commentVersion_eq_some_iff` say that nothing else is.
-/

namespace BtrfsPeek.Helper

open Decimal

/-- A number of a version, of at most 19 digits. -/
abbrev Part := { n : Nat // n < 10 ^ 19 }

/-- Made by `Version::parse`, and by nothing else. -/
structure Version where
  major : Part
  minor : Part
  patch : Part
  deriving DecidableEq

/-- `X` of `X.Y.Z`: decimal, at most 19 digits, no leading zero except "0"
itself, so that it fits 64 bits. -/
def canonical (p : Text) : Bool :=
  !p.isEmpty && p.length ≤ 19 && p.all Char.isDigit && (p == ['0'] || p.head? != some '0')

theorem canonical_lt {p : Text} (h : canonical p = true) : Nat.ofDigitChars 10 p 0 < 10 ^ 19 := by
  simp only [canonical, Bool.and_eq_true, decide_eq_true_eq] at h
  exact (ofDigitChars_lt h.1.2).trans_le (Nat.pow_le_pow_right (by decide) h.1.1.2)

def parsePart (p : Text) : Option Part :=
  if h : canonical p = true then some ⟨Nat.ofDigitChars 10 p 0, canonical_lt h⟩ else none

/-- `X.Y.Z`, decimal, nothing else. -/
def Version.parse (s : String) : Option Version :=
  match s.toList.splitOn '.' with
  | [x, y, z] => do
    let major ← parsePart x
    let minor ← parsePart y
    let patch ← parsePart z
    some { major, minor, patch }
  | _ => none

instance : ToString Version :=
  ⟨fun v => s!"{v.major.1}.{v.minor.1}.{v.patch.1}"⟩

/-- The derived order: by major, then by minor, then by patch. -/
instance : Ord Version :=
  ⟨fun v w => (compare v.major.1 w.major.1).then
    ((compare v.minor.1 w.minor.1).then (compare v.patch.1 w.patch.1))⟩

/-- The only target the service updates to. -/
def TARGET : String := "windows-x86_64"

/-- What a check for an update did. -/
inductive Update
  /-- Nothing newer is signed; the version running. -/
  | upToDate (v : Version)
  /-- This version is in place and runs once the service restarts. -/
  | installed (v : Version)
  deriving DecidableEq

def UPDATED_TO : String := "updated to "

/-- The text the service replies with. -/
def Update.text : Update → String
  | upToDate v => s!"up to date ({v})"
  | installed v => s!"{UPDATED_TO}{v}; restarting when idle"

/-- `str::strip_prefix`. -/
def stripPrefix (p s : Text) : Option Text :=
  if p.isPrefixOf s then some (s.drop p.length) else none

/-- `str::split_once`. -/
def splitOnce (c : Char) (s : Text) : Option (Text × Text) :=
  if c ∈ s then some (s.takeWhile (· != c), (s.dropWhile (· != c)).tail) else none

/-- The version an installed update's reply names; none for any other reply. -/
def installedVersion (reply : String) : Option Version := do
  let rest ← stripPrefix UPDATED_TO.toList reply.toList
  let (v, _) ← splitOnce ';' rest
  Version.parse (String.ofList v)

/-- The version a trusted comment names, if it is exactly
`btrfs-peek X.Y.Z windows-x86_64`. -/
def commentVersion (comment : String) : Option Version := do
  let rest ← stripPrefix "btrfs-peek ".toList comment.toList
  let (v, target) ← splitOnce ' ' rest
  if target ≠ TARGET.toList then none else Version.parse (String.ofList v)

/-! ## Round trip -/

theorem stripPrefix_append (p s : Text) : stripPrefix p (p ++ s) = some s := by
  rw [stripPrefix, if_pos (by simp), List.drop_left]

theorem splitOnce_append {c : Char} {a : Text} (h : c ∉ a) (b : Text) :
    splitOnce c (a ++ c :: b) = some (a, b) := by
  have ha : ∀ x ∈ a, (x != c) = true := by
    intro x hx
    simp only [bne_iff_ne, ne_eq]
    exact fun e => h (e ▸ hx)
  rw [splitOnce, if_pos (by simp), List.takeWhile_append_of_pos ha, List.dropWhile_append_of_pos ha]
  simp

theorem stripPrefix_eq_some {p s r : Text} : stripPrefix p s = some r ↔ s = p ++ r := by
  constructor
  · intro h
    by_cases hp : p.isPrefixOf s
    · rw [stripPrefix, if_pos hp, Option.some.injEq] at h
      rw [← h, ← List.prefix_iff_eq_append.mp (List.isPrefixOf_iff_prefix.mp hp)]
      simp
    · rw [stripPrefix, if_neg hp] at h
      exact absurd h (by simp)
  · rintro rfl
    exact stripPrefix_append p r

theorem splitOnce_eq_some {c : Char} {s a b : Text} :
    splitOnce c s = some (a, b) ↔ c ∉ a ∧ s = a ++ c :: b := by
  constructor
  · intro h
    by_cases hc : c ∈ s
    · rw [splitOnce, if_pos hc, Option.some.injEq, Prod.mk.injEq] at h
      obtain ⟨rfl, rfl⟩ := h
      have hne : s.dropWhile (· != c) ≠ [] := by
        intro he
        have := List.dropWhile_eq_nil_iff.mp he c hc
        simp at this
      have hhead : (s.dropWhile (· != c)).head hne = c := by
        have := List.head_dropWhile_not (· != c) hne
        simpa using this
      have hcons : c :: (s.dropWhile (· != c)).tail = s.dropWhile (· != c) := by
        conv_rhs => rw [← List.cons_head_tail hne, hhead]
      refine ⟨fun hmem => ?_, ?_⟩
      · have := List.mem_takeWhile_imp hmem
        simp at this
      · rw [hcons, List.takeWhile_append_dropWhile]
    · rw [splitOnce, if_neg hc] at h
      exact absurd h (by simp)
  · rintro ⟨hc, rfl⟩
    exact splitOnce_append hc b

theorem canonical_iff {p : Text} : canonical p = true ↔ Plain p ∧ p.length ≤ 19 := by
  simp only [canonical, Plain, Bool.and_eq_true, decide_eq_true_eq, Bool.or_eq_true, beq_iff_eq,
    bne_iff_ne, Bool.not_eq_true', List.isEmpty_eq_false_iff]
  tauto

theorem canonical_toDigits (n : Part) : canonical (Nat.toDigits 10 n) = true := by
  have hl : (Nat.toDigits 10 (n : Nat)).length ≤ 19 :=
    (Nat.length_toDigits_le_iff (by decide) (by decide)).mpr n.2
  exact canonical_iff.mpr ⟨plain_toDigits n, hl⟩

theorem parsePart_toDigits (n : Part) : parsePart (Nat.toDigits 10 n) = some n := by
  rw [parsePart, dif_pos (canonical_toDigits n)]
  exact congrArg some (Subtype.ext Nat.ofDigitChars_ten_toDigits)

theorem parsePart_eq_some {p : Text} {n : Part} (h : parsePart p = some n) :
    p = Nat.toDigits 10 n := by
  by_cases hp : canonical p = true
  · rw [parsePart, dif_pos hp, Option.some.injEq] at h
    rw [← h, (canonical_iff.mp hp).1.toDigits_eq]
  · rw [parsePart, dif_neg hp] at h
    exact absurd h (by simp)

theorem Version.toList_toString (v : Version) : (toString v).toList =
    Nat.toDigits 10 v.major ++ '.' :: (Nat.toDigits 10 v.minor ++ '.' :: Nat.toDigits 10 v.patch) := by
  show (toString v.major.1 ++ "." ++ toString v.minor.1 ++ "." ++ toString v.patch.1).toList = _
  simp

/-- What a version displays is parsed back. -/
theorem Version.parse_toString (v : Version) : Version.parse (toString v) = some v := by
  have hs : (toString v).toList.splitOn '.' =
      [Nat.toDigits 10 v.major, Nat.toDigits 10 v.minor, Nat.toDigits 10 v.patch] := by
    have := @List.splitOn_intercalate _
      [Nat.toDigits 10 v.major, Nat.toDigits 10 v.minor, Nat.toDigits 10 v.patch] _ _ '.'
      (by simp [not_mem_toDigits]) (by simp)
    rw [← this, toList_toString]
    simp [List.intercalate]
  rw [parse, hs]
  simp only [parsePart_toDigits]
  rfl

/-- A version is parsed from what it displays, and from nothing else. -/
theorem Version.parse_eq_some_iff {s : String} {v : Version} :
    Version.parse s = some v ↔ s = toString v := by
  constructor
  · intro h
    have hs : ['.'].intercalate (s.toList.splitOn '.') = s.toList := List.intercalate_splitOn '.'
    unfold parse at h
    split at h
    · next x y z hxyz =>
      simp only [Option.bind_eq_bind, Option.bind_eq_some_iff, Option.some.injEq] at h
      obtain ⟨major, hx, minor, hy, patch, hz, rfl⟩ := h
      rw [hxyz, parsePart_eq_some hx, parsePart_eq_some hy, parsePart_eq_some hz] at hs
      apply String.toList_inj.mp
      rw [toList_toString, ← hs]
      simp [List.intercalate]
    · exact absurd h (by simp)
  · rintro rfl
    exact parse_toString v

theorem Update.toList_installed (v : Version) : (Update.installed v).text.toList =
    UPDATED_TO.toList ++ ((toString v).toList ++ ';' :: " restarting when idle".toList) := by
  show (UPDATED_TO ++ toString v ++ "; restarting when idle").toList = _
  simp

/-- A reply that reports an installed version names it. -/
theorem installedVersion_installed (v : Version) :
    installedVersion (Update.installed v).text = some v := by
  have hv : ';' ∉ (toString v).toList := by
    rw [Version.toList_toString]
    simp [not_mem_toDigits]
  unfold installedVersion
  rw [Update.toList_installed, stripPrefix_append]
  simp only [Option.bind_eq_bind, Option.bind_some, splitOnce_append hv, String.ofList_toList,
    Version.parse_toString]

theorem installedVersion_upToDate (v : Version) :
    installedVersion (Update.upToDate v).text = none := by
  have hs : stripPrefix UPDATED_TO.toList (Update.upToDate v).text.toList = none := by
    show stripPrefix "updated to ".toList ("up to date (" ++ toString v ++ ")").toList = none
    simp [stripPrefix]
  unfold installedVersion
  rw [hs]
  rfl

theorem space_not_mem_toString (v : Version) : ' ' ∉ (toString v).toList := by
  rw [Version.toList_toString]
  simp [not_mem_toDigits]

/-- A comment names the version in it, and nothing else names one. -/
theorem commentVersion_eq_some_iff {c : String} {v : Version} :
    commentVersion c = some v ↔ c = "btrfs-peek " ++ toString v ++ " " ++ TARGET := by
  have hlist : ("btrfs-peek " ++ toString v ++ " " ++ TARGET).toList =
      "btrfs-peek ".toList ++ ((toString v).toList ++ ' ' :: TARGET.toList) := by
    simp
  constructor
  · intro h
    simp only [commentVersion, Option.bind_eq_bind, Option.bind_eq_some_iff] at h
    obtain ⟨rest, hrest, ⟨x, target⟩, hsplit, h⟩ := h
    by_cases ht : target = TARGET.toList
    · simp only [ht, ne_eq, not_true_eq_false, if_false] at h
      have hx := Version.parse_eq_some_iff.mp h
      apply String.toList_inj.mp
      rw [hlist, stripPrefix_eq_some.mp hrest, (splitOnce_eq_some.mp hsplit).2, ht, ← hx]
      simp only [String.toList_ofList]
    · simp [ht] at h
  · rintro rfl
    unfold commentVersion
    rw [hlist, stripPrefix_append]
    simp only [Option.bind_eq_bind, Option.bind_some, splitOnce_append (space_not_mem_toString v),
      ne_eq, not_true_eq_false, if_false, String.ofList_toList, Version.parse_toString]

theorem Version.compare_eq_lt {v w : Version} : compare v w = .lt ↔
    v.major.1 < w.major.1 ∨ v.major.1 = w.major.1 ∧
      (v.minor.1 < w.minor.1 ∨ v.minor.1 = w.minor.1 ∧ v.patch.1 < w.patch.1) := by
  show (compare v.major.1 w.major.1).then
    ((compare v.minor.1 w.minor.1).then (compare v.patch.1 w.patch.1)) = .lt ↔ _
  simp only [Ordering.then_eq_lt, Nat.compare_eq_lt, Nat.compare_eq_eq]

theorem Version.compare_eq_eq {v w : Version} : compare v w = .eq ↔ v = w := by
  show (compare v.major.1 w.major.1).then
    ((compare v.minor.1 w.minor.1).then (compare v.patch.1 w.patch.1)) = .eq ↔ _
  simp only [Ordering.then_eq_eq, Nat.compare_eq_eq]
  constructor
  · intro ⟨hmajor, hminor, hpatch⟩
    obtain ⟨major, minor, patch⟩ := v
    obtain ⟨major', minor', patch'⟩ := w
    rw [Version.mk.injEq]
    exact ⟨Subtype.ext hmajor, Subtype.ext hminor, Subtype.ext hpatch⟩
  · rintro rfl
    exact ⟨rfl, rfl, rfl⟩

/-- A version has one spelling, which the comments and the replies that carry it
keep, and versions are ordered by their numbers. -/
theorem versions_one_spelling :
    (∀ s v, Version.parse s = some v → toString v = s ∧ Version.parse (toString v) = some v) ∧
    (∀ v w : Version, (compare v w = .eq ↔ v = w) ∧
      (compare v w = .lt ↔ v.major.1 < w.major.1 ∨ v.major.1 = w.major.1 ∧
        (v.minor.1 < w.minor.1 ∨ v.minor.1 = w.minor.1 ∧ v.patch.1 < w.patch.1))) ∧
    (∀ c, (∃ v, commentVersion c = some v) ↔
      ∃ s, (∃ v, Version.parse s = some v) ∧ c = "btrfs-peek " ++ s ++ " windows-x86_64") ∧
    (∀ c d v, commentVersion c = some v → commentVersion d = some v → c = d) ∧
    ∀ v, installedVersion (Update.installed v).text = some v ∧
      installedVersion (Update.upToDate v).text = none := by
  refine ⟨?_, ?_, ?_, ?_, ?_⟩
  · intro s v h
    exact ⟨(Version.parse_eq_some_iff.mp h).symm, Version.parse_toString v⟩
  · intro v w
    exact ⟨Version.compare_eq_eq, Version.compare_eq_lt⟩
  · intro c
    simp only [commentVersion_eq_some_iff, Version.parse_eq_some_iff]
    constructor
    · rintro ⟨v, rfl⟩
      refine ⟨toString v, ⟨v, rfl⟩, ?_⟩
      simp only [String.append_assoc]
      rfl
    · rintro ⟨_, ⟨v, rfl⟩, rfl⟩
      refine ⟨v, ?_⟩
      simp only [String.append_assoc]
      rfl
  · intro c d v hc hd
    rw [commentVersion_eq_some_iff.mp hc, commentVersion_eq_some_iff.mp hd]
  · intro v
    exact ⟨installedVersion_installed v, installedVersion_upToDate v⟩

end BtrfsPeek.Helper
