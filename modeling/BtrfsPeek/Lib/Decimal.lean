import Mathlib.Data.List.Induction
import Mathlib.Tactic.Common
import Mathlib.Tactic.IntervalCases

/-!
# Decimal numbers

A number has one decimal text without leading zeros, and `plain_iff` says which
texts these are. `toDigits_inj` is what makes such a text a name of its number.
-/

namespace BtrfsPeek.Decimal

/-- Digits, at least one, and no leading zero except "0" itself. -/
def Plain (p : List Char) : Prop :=
  p ≠ [] ∧ p.all Char.isDigit = true ∧ (p = ['0'] ∨ p.head? ≠ some '0')

theorem digit_range {c : Char} (h : c.isDigit = true) : 48 ≤ c.toNat ∧ c.toNat ≤ 57 := by
  simp only [Char.isDigit, Bool.and_eq_true, decide_eq_true_eq, UInt32.le_iff_toNat_le] at h
  exact h

theorem digitChar_of_isDigit {c : Char} (h : c.isDigit = true) :
    Nat.digitChar (c.toNat - '0'.toNat) = c := by
  obtain ⟨hlo, hhi⟩ := digit_range h
  have hc : c = Char.ofNat c.toNat := (Char.ofNat_toNat c).symm
  show Nat.digitChar (c.toNat - 48) = c
  generalize hn : c.toNat = n at *
  interval_cases n <;> (rw [hc]; rfl)

theorem ofDigitChars_concat (p : List Char) (c : Char) :
    Nat.ofDigitChars 10 (p ++ [c]) 0 = 10 * Nat.ofDigitChars 10 p 0 + (c.toNat - '0'.toNat) := by
  rw [Nat.ofDigitChars_append, Nat.ofDigitChars_cons, Nat.ofDigitChars_nil]

theorem ofDigitChars_lt {p : List Char} (h : p.all Char.isDigit = true) :
    Nat.ofDigitChars 10 p 0 < 10 ^ p.length := by
  induction p using List.reverseRecOn with
  | nil => simp
  | append_singleton p c ih =>
    simp only [List.all_append, List.all_cons, List.all_nil, Bool.and_true, Bool.and_eq_true] at h
    have hp := ih h.1
    obtain ⟨hlo, hhi⟩ := digit_range h.2
    have h0 : '0'.toNat = 48 := rfl
    rw [ofDigitChars_concat, List.length_append, List.length_singleton, pow_succ]
    omega

theorem toDigits_inj {n m : Nat} (h : Nat.toDigits 10 n = Nat.toDigits 10 m) : n = m := by
  have := congrArg (fun p => Nat.ofDigitChars 10 p 0) h
  simpa only [Nat.ofDigitChars_ten_toDigits] using this

theorem isDigit_of_mem {n : Nat} {c : Char} (h : c ∈ Nat.toDigits 10 n) : c.isDigit = true :=
  Nat.isDigit_of_mem_toDigits (by decide) (by decide) h

theorem not_mem_toDigits {n : Nat} {c : Char} (h : c.isDigit = false) : c ∉ Nat.toDigits 10 n := by
  intro hc
  rw [isDigit_of_mem hc] at h
  exact absurd h (by decide)

theorem head_toDigits (n : Nat) : Nat.toDigits 10 n = ['0'] ∨ (Nat.toDigits 10 n).head? ≠ some '0' := by
  induction n using Nat.strongRecOn with
  | ind n ih =>
    by_cases hn : n < 10
    · interval_cases n <;> decide
    · right
      rw [Nat.toDigits_of_base_le (by decide) (by omega)]
      have hlt : n / 10 < n := by omega
      rw [List.head?_append, Option.or_of_isSome (by simp)]
      apply (ih _ hlt).resolve_left
      intro h
      have : n / 10 = 0 := toDigits_inj h
      omega

theorem plain_toDigits (n : Nat) : Plain (Nat.toDigits 10 n) :=
  ⟨Nat.toDigits_ne_nil, List.all_eq_true.mpr fun _ => isDigit_of_mem, head_toDigits n⟩

/-- The number of a text that does not begin with a zero is not zero. -/
theorem ofDigitChars_pos {p : List Char} (hd : p.all Char.isDigit = true) (hne : p ≠ [])
    (h0 : p.head? ≠ some '0') : 0 < Nat.ofDigitChars 10 p 0 := by
  induction p using List.reverseRecOn with
  | nil => exact absurd rfl hne
  | append_singleton p c ih =>
    simp only [List.all_append, List.all_cons, List.all_nil, Bool.and_true, Bool.and_eq_true] at hd
    rw [ofDigitChars_concat]
    by_cases hp : p = []
    · subst hp
      obtain ⟨hlo, hhi⟩ := digit_range hd.2
      have hc : c.toNat ≠ 48 := by
        intro h
        apply h0
        rw [show c = '0' from Char.ext (UInt32.toNat_inj.mp h)]
        rfl
      have h48 : '0'.toNat = 48 := rfl
      omega
    · rw [List.head?_append, Option.or_of_isSome (by simpa using hp)] at h0
      have := ih hd.1 hp h0
      omega

/-- A number is written as the text it was read from. -/
theorem Plain.toDigits_eq {p : List Char} (h : Plain p) :
    Nat.toDigits 10 (Nat.ofDigitChars 10 p 0) = p := by
  obtain ⟨hne, hd, h0⟩ := h
  rcases h0 with rfl | h0
  · rfl
  induction p using List.reverseRecOn with
  | nil => exact absurd rfl hne
  | append_singleton p c ih =>
    simp only [List.all_append, List.all_cons, List.all_nil, Bool.and_true, Bool.and_eq_true] at hd
    obtain ⟨hlo, hhi⟩ := digit_range hd.2
    have h48 : '0'.toNat = 48 := rfl
    have hc : Nat.toDigits 10 (c.toNat - '0'.toNat) = [c] := by
      rw [Nat.toDigits_of_lt_base (by omega), digitChar_of_isDigit hd.2]
    rw [ofDigitChars_concat]
    by_cases hp : p = []
    · subst hp
      simpa using hc
    · rw [List.head?_append, Option.or_of_isSome (by simpa using hp)] at h0
      have hpos := ofDigitChars_pos hd.1 hp h0
      rw [← Nat.toDigits_append_toDigits (by decide) hpos (by omega), ih hp hd.1 h0, hc]

theorem plain_iff {p : List Char} : Plain p ↔ ∃ n, p = Nat.toDigits 10 n := by
  constructor
  · intro h
    exact ⟨_, h.toDigits_eq.symm⟩
  · rintro ⟨n, rfl⟩
    exact plain_toDigits n

end BtrfsPeek.Decimal
