import BtrfsPeek.Helper.Update

/-!
# The paths the helper opens

`partition_path_ok`, from `helper.rs`, which is all that stands between a client
and a path opened as SYSTEM. `partitionPathOk_iff` is its grammar: such a path is
`\\.\HarddiskNPartitionM`, in any case, and names the disk N and the partition M.
-/

namespace BtrfsPeek.Helper

open Decimal

/-- `str::split_once` at a word: at its first occurrence. -/
def splitAtWord (w : Text) : Text → Option (Text × Text)
  | [] => if w = [] then some ([], []) else none
  | c :: s =>
    if w.isPrefixOf (c :: s) then some ([], (c :: s).drop w.length)
    else (splitAtWord w s).map fun (a, b) => (c :: a, b)

/-- One to three decimal digits, no leading zero except "0" itself. -/
def numberOk (n : Text) : Bool :=
  1 ≤ n.length && n.length ≤ 3 && n.all Char.isDigit && (n == ['0'] || n.head? != some '0')

def HARDDISK : Text := "\\\\.\\harddisk".toList

def PARTITION : Text := "partition".toList

/-- Whether `p` names a partition the helper may open: `\\.\HarddiskNPartitionM`
with M >= 1. Partition 0 is the whole disk. -/
def partitionPathOk (p : String) : Bool :=
  match stripPrefix HARDDISK (p.toList.map Char.toLower) with
  | none => false
  | some rest =>
    match splitAtWord PARTITION rest with
    | none => false
    | some (disk, part) => numberOk disk && numberOk part && part != ['0']

/-- `p` is the prefix, the number `disk`, the word and the number `part`, in any case. -/
def Spells (p : String) (disk part : Nat) : Prop :=
  p.toList.map Char.toLower =
    HARDDISK ++ (Nat.toDigits 10 disk ++ (PARTITION ++ Nat.toDigits 10 part))

/-! ## Splitting -/

theorem splitAtWord_eq {w s a b : Text} (h : splitAtWord w s = some (a, b)) : s = a ++ (w ++ b) := by
  induction s generalizing a b with
  | nil =>
    unfold splitAtWord at h
    by_cases hw : w = []
    · simp only [hw, if_true, Option.some.injEq, Prod.mk.injEq] at h
      simp [hw, ← h.1, ← h.2]
    · simp [hw] at h
  | cons c s ih =>
    unfold splitAtWord at h
    by_cases hp : w.isPrefixOf (c :: s) = true
    · simp only [hp, if_true, Option.some.injEq, Prod.mk.injEq] at h
      obtain ⟨rfl, rfl⟩ := h
      exact (List.prefix_iff_eq_append.mp (List.isPrefixOf_iff_prefix.mp hp)).symm
    · simp only [hp, Bool.false_eq_true, if_false, Option.map_eq_some_iff, Prod.mk.injEq] at h
      obtain ⟨⟨a', b'⟩, hs, rfl, rfl⟩ := h
      rw [ih hs]
      rfl

/-- No occurrence of a word begins in a text without the word's first letter. -/
theorem splitAtWord_append {c : Char} {w a : Text} (h : c ∉ a) (b : Text) :
    splitAtWord (c :: w) (a ++ (c :: w ++ b)) = some (a, b) := by
  induction a with
  | nil =>
    show splitAtWord (c :: w) (c :: (w ++ b)) = _
    rw [splitAtWord, if_pos (by simp)]
    simp
  | cons x a ih =>
    simp only [List.mem_cons, not_or] at h
    have hx : ¬ (c :: w).isPrefixOf (x :: (a ++ (c :: w ++ b))) = true := by
      simp [h.1]
    show splitAtWord (c :: w) (x :: (a ++ (c :: w ++ b))) = _
    rw [splitAtWord, if_neg hx, ih h.2]
    rfl

/-! ## The grammar -/

theorem numberOk_iff {n : Text} : numberOk n = true ↔ ∃ k, k < 1000 ∧ n = Nat.toDigits 10 k := by
  have hplain : numberOk n = true ↔ Plain n ∧ n.length ≤ 3 := by
    simp only [numberOk, Plain, Bool.and_eq_true, decide_eq_true_eq, Bool.or_eq_true, beq_iff_eq,
      bne_iff_ne, Nat.one_le_iff_ne_zero, ne_eq, List.length_eq_zero_iff]
    tauto
  have hlen (k : Nat) : (Nat.toDigits 10 k).length ≤ 3 ↔ k < 1000 :=
    Nat.length_toDigits_le_iff (by decide) (by decide)
  rw [hplain, plain_iff]
  constructor
  · rintro ⟨⟨k, rfl⟩, h⟩
    exact ⟨k, (hlen k).mp h, rfl⟩
  · rintro ⟨k, hk, rfl⟩
    exact ⟨⟨k, rfl⟩, (hlen k).mpr hk⟩

/-- What is said to be a number is one of at most three digits, and what is not "0" is not 0. -/
theorem toDigits_ne_zero {k : Nat} : Nat.toDigits 10 k ≠ ['0'] ↔ 0 < k := by
  rw [Nat.pos_iff_ne_zero, ne_eq, ne_eq, not_iff_not]
  constructor
  · intro h
    exact toDigits_inj (m := 0) h
  · rintro rfl
    rfl

/-- A path spells at most one disk and one partition. -/
theorem Spells.unique {p : String} {disk part disk' part' : Nat} (h : Spells p disk part)
    (h' : Spells p disk' part') : disk = disk' ∧ part = part' := by
  have hp (k : Nat) : 'p' ∉ Nat.toDigits 10 k := not_mem_toDigits (by decide)
  have heq := List.append_cancel_left (h.symm.trans h')
  have hsplit := splitAtWord_append (w := "artition".toList) (hp disk) (Nat.toDigits 10 part)
  have hsplit' := splitAtWord_append (w := "artition".toList) (hp disk') (Nat.toDigits 10 part')
  have hboth : some (Nat.toDigits 10 disk, Nat.toDigits 10 part) =
      some (Nat.toDigits 10 disk', Nat.toDigits 10 part') :=
    hsplit.symm.trans ((congrArg _ heq).trans hsplit')
  simp only [Option.some.injEq, Prod.mk.injEq] at hboth
  exact ⟨toDigits_inj hboth.1, toDigits_inj hboth.2⟩

theorem partitionPathOk_eq (p : String) : partitionPathOk p = true ↔
    ∃ disk part, disk < 1000 ∧ 0 < part ∧ part < 1000 ∧ Spells p disk part := by
  unfold partitionPathOk
  constructor
  · intro h
    split at h
    · exact absurd h (by decide)
    next rest hrest =>
    split at h
    · exact absurd h (by decide)
    next disk part hsplit =>
    simp only [Bool.and_eq_true, bne_iff_ne, numberOk_iff] at h
    obtain ⟨⟨⟨n, hn, rfl⟩, m, hm, rfl⟩, h0⟩ := h
    refine ⟨n, m, hn, toDigits_ne_zero.mp h0, hm, ?_⟩
    rw [Spells, stripPrefix_eq_some.mp hrest, splitAtWord_eq hsplit]
  · rintro ⟨disk, part, hdisk, hpos, hpart, h⟩
    have hp : 'p' ∉ Nat.toDigits 10 disk := not_mem_toDigits (by decide)
    have hsplit : splitAtWord PARTITION (Nat.toDigits 10 disk ++ (PARTITION ++ Nat.toDigits 10 part)) =
      some (Nat.toDigits 10 disk, Nat.toDigits 10 part) := splitAtWord_append hp _
    rw [stripPrefix_eq_some.mpr h]
    simp only [hsplit, Bool.and_eq_true, bne_iff_ne, numberOk_iff]
    exact ⟨⟨⟨disk, hdisk, rfl⟩, part, hpart, rfl⟩, toDigits_ne_zero.mpr hpos⟩

/-- The check takes the paths of the grammar, and two of them name one disk and
partition only if they differ in case alone. -/
theorem partitionPathOk_iff :
    (∀ p, partitionPathOk p = true ↔
      ∃ disk part, disk < 1000 ∧ 0 < part ∧ part < 1000 ∧ Spells p disk part) ∧
    ∀ p q disk part disk' part', Spells p disk part → Spells q disk' part' →
      ((disk, part) = (disk', part') ↔ p.toList.map Char.toLower = q.toList.map Char.toLower) := by
  refine ⟨partitionPathOk_eq, ?_⟩
  intro p q disk part disk' part' hp hq
  constructor
  · intro heq
    obtain ⟨rfl, rfl⟩ := Prod.mk.inj heq
    exact hp.trans hq.symm
  · intro heq
    have hq' : Spells p disk' part' := heq.trans hq
    rw [Prod.mk.injEq]
    exact hp.unique hq'

end BtrfsPeek.Helper
