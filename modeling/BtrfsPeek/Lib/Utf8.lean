import BtrfsPeek.Lib.Bytes
import Mathlib.Tactic.Common

/-!
# UTF-8

Text is a list of characters (`Text`). `toUtf8` encodes it, and `fromUtf8Lossy`
decodes any bytes: every maximal run of bytes that begins no character becomes
one U+FFFD. `fromUtf8Lossy_toUtf8` is the round trip.
-/

/-- A string, character by character. -/
abbrev Text := List Char

namespace Utf8

/-- The bytes of the code point `n`. -/
def encode (n : Nat) : Bytes :=
  if n < 0x80 then [UInt8.ofNat n]
  else if n < 0x800 then [UInt8.ofNat (0xC0 + n / 64), UInt8.ofNat (0x80 + n % 64)]
  else if n < 0x10000 then
    [UInt8.ofNat (0xE0 + n / 4096), UInt8.ofNat (0x80 + n / 64 % 64), UInt8.ofNat (0x80 + n % 64)]
  else
    [UInt8.ofNat (0xF0 + n / 262144), UInt8.ofNat (0x80 + n / 4096 % 64),
      UInt8.ofNat (0x80 + n / 64 % 64), UInt8.ofNat (0x80 + n % 64)]

/-- The UTF-8 of a text. -/
def toUtf8 (t : Text) : Bytes := t.flatMap fun c => encode c.toNat

/-- U+FFFD, which stands for bytes that are no text. -/
def replacement : Char := Char.ofNat 0xFFFD

/-- Whether `y` may follow `x` as the second byte of three. -/
def second3 (x y : Nat) : Bool :=
  if x = 0xE0 then 0xA0 ≤ y && y ≤ 0xBF
  else if x = 0xED then 0x80 ≤ y && y ≤ 0x9F
  else 0x80 ≤ y && y ≤ 0xBF

/-- Whether `y` may follow `x` as the second byte of four. -/
def second4 (x y : Nat) : Bool :=
  if x = 0xF0 then 0x90 ≤ y && y ≤ 0xBF
  else if x = 0xF4 then 0x80 ≤ y && y ≤ 0x8F
  else 0x80 ≤ y && y ≤ 0xBF

/-- A continuation byte. -/
def cont (y : Nat) : Bool := 0x80 ≤ y && y ≤ 0xBF

/-- What the bytes begin with: a code point, or none, and how many bytes that
takes. A byte past the end reads as 0. -/
def next (b : Bytes) : Option Nat × Nat :=
  let x := (b.getD 0 0).toNat
  let y := (b.getD 1 0).toNat
  let z := (b.getD 2 0).toNat
  let w := (b.getD 3 0).toNat
  if x < 0x80 then (some x, 1)
  else if 0xC2 ≤ x ∧ x ≤ 0xDF then
    if cont y then (some ((x - 0xC0) * 64 + (y - 0x80)), 2) else (none, 1)
  else if 0xE0 ≤ x ∧ x ≤ 0xEF then
    if second3 x y then
      if cont z then (some ((x - 0xE0) * 4096 + (y - 0x80) * 64 + (z - 0x80)), 3) else (none, 2)
    else (none, 1)
  else if 0xF0 ≤ x ∧ x ≤ 0xF4 then
    if second4 x y then
      if cont z then
        if cont w then
          (some ((x - 0xF0) * 262144 + (y - 0x80) * 4096 + (z - 0x80) * 64 + (w - 0x80)), 4)
        else (none, 3)
      else (none, 2)
    else (none, 1)
  else (none, 1)

/-- The characters of the first `fuel` steps. -/
def lossy : Nat → Bytes → Text
  | 0, _ => []
  | _ + 1, [] => []
  | fuel + 1, b@(_ :: _) =>
    ((next b).1.elim replacement Char.ofNat) :: lossy fuel (b.drop (next b).2)

/-- `String::from_utf8_lossy`. Every step takes a byte, so the length is fuel
enough. -/
def fromUtf8Lossy (b : Bytes) : Text := lossy b.length b

/-- `String::from_utf8`: the text whose UTF-8 the bytes are. -/
def fromUtf8 (b : Bytes) : Option Text :=
  if toUtf8 (fromUtf8Lossy b) = b then some (fromUtf8Lossy b) else none

/-! ## Round trip -/

/-- A code point that is a character. -/
def Scalar (n : Nat) : Prop := n < 0xD800 ∨ 0xDFFF < n ∧ n < 0x110000

theorem scalar_toNat (c : Char) : Scalar c.toNat := c.valid

theorem toNat_ofNat_byte {n : Nat} (h : n < 256) : (UInt8.ofNat n).toNat = n := by
  simp; omega

theorem length_encode_pos (n : Nat) : 0 < (encode n).length := by
  unfold encode; split_ifs <;> simp

theorem next_encode {n : Nat} (h : Scalar n) (rest : Bytes) :
    next (encode n ++ rest) = (some n, (encode n).length) := by
  unfold Scalar at h
  unfold encode
  split_ifs with h1 h2 h3
  · have e : (UInt8.ofNat n).toNat = n := toNat_ofNat_byte (by omega)
    simp [next, e, h1]
  · have e1 : (UInt8.ofNat (0xC0 + n / 64)).toNat = 0xC0 + n / 64 := toNat_ofNat_byte (by omega)
    have e2 : (UInt8.ofNat (0x80 + n % 64)).toNat = 0x80 + n % 64 := toNat_ofNat_byte (by omega)
    have c : cont (0x80 + n % 64) = true := by simp [cont]; omega
    simp only [next, List.cons_append, List.nil_append, List.getD_cons_zero, List.getD_cons_succ,
      e1, e2, c, if_true, List.length_cons, List.length_nil]
    rw [if_neg (by omega), if_pos (by omega)]
    simp; omega
  · have e1 : (UInt8.ofNat (0xE0 + n / 4096)).toNat = 0xE0 + n / 4096 := toNat_ofNat_byte (by omega)
    have e2 : (UInt8.ofNat (0x80 + n / 64 % 64)).toNat = 0x80 + n / 64 % 64 :=
      toNat_ofNat_byte (by omega)
    have e3 : (UInt8.ofNat (0x80 + n % 64)).toNat = 0x80 + n % 64 := toNat_ofNat_byte (by omega)
    have c : cont (0x80 + n % 64) = true := by simp [cont]; omega
    have c2 : second3 (0xE0 + n / 4096) (0x80 + n / 64 % 64) = true := by
      unfold second3; split_ifs <;> simp <;> omega
    simp only [next, List.cons_append, List.nil_append, List.getD_cons_zero, List.getD_cons_succ,
      e1, e2, e3, c, c2, if_true, List.length_cons, List.length_nil]
    rw [if_neg (by omega), if_neg (by omega), if_pos (by omega)]
    simp; omega
  · have e1 : (UInt8.ofNat (0xF0 + n / 262144)).toNat = 0xF0 + n / 262144 :=
      toNat_ofNat_byte (by omega)
    have e2 : (UInt8.ofNat (0x80 + n / 4096 % 64)).toNat = 0x80 + n / 4096 % 64 :=
      toNat_ofNat_byte (by omega)
    have e3 : (UInt8.ofNat (0x80 + n / 64 % 64)).toNat = 0x80 + n / 64 % 64 :=
      toNat_ofNat_byte (by omega)
    have e4 : (UInt8.ofNat (0x80 + n % 64)).toNat = 0x80 + n % 64 := toNat_ofNat_byte (by omega)
    have c : cont (0x80 + n % 64) = true := by simp [cont]; omega
    have c3 : cont (0x80 + n / 64 % 64) = true := by simp [cont]; omega
    have c2 : second4 (0xF0 + n / 262144) (0x80 + n / 4096 % 64) = true := by
      unfold second4; split_ifs <;> simp <;> omega
    simp only [next, List.cons_append, List.nil_append, List.getD_cons_zero, List.getD_cons_succ,
      e1, e2, e3, e4, c, c2, c3, if_true, List.length_cons, List.length_nil]
    rw [if_neg (by omega), if_neg (by omega), if_neg (by omega), if_pos (by omega)]
    simp; omega

theorem lossy_toUtf8 : ∀ (t : Text) (fuel : Nat), (toUtf8 t).length ≤ fuel →
    lossy fuel (toUtf8 t) = t
  | [], fuel, _ => by cases fuel <;> rfl
  | c :: t, fuel, h => by
    have e : toUtf8 (c :: t) = encode c.toNat ++ toUtf8 t := rfl
    have hp := length_encode_pos c.toNat
    rw [e, List.length_append] at h
    obtain ⟨fuel, rfl⟩ : ∃ k, fuel = k + 1 := ⟨fuel - 1, by omega⟩
    have hn := next_encode (scalar_toNat c) (toUtf8 t)
    rw [e]
    cases hb : encode c.toNat ++ toUtf8 t with
    | nil => simp only [List.append_eq_nil_iff] at hb; rw [hb.1] at hp; simp at hp
    | cons x xs =>
      rw [lossy, ← hb, hn]
      simp only [Option.elim_some, Char.ofNat_toNat, List.drop_left]
      rw [lossy_toUtf8 t fuel (by omega)]

/-- Text survives its encoding. -/
theorem fromUtf8Lossy_toUtf8 (t : Text) : fromUtf8Lossy (toUtf8 t) = t :=
  lossy_toUtf8 t _ (Nat.le_refl _)

theorem toUtf8_injective {t u : Text} (h : toUtf8 t = toUtf8 u) : t = u := by
  rw [← fromUtf8Lossy_toUtf8 t, h, fromUtf8Lossy_toUtf8]

theorem fromUtf8_toUtf8 (t : Text) : fromUtf8 (toUtf8 t) = some t := by
  rw [fromUtf8, fromUtf8Lossy_toUtf8, if_pos rfl]

example : fromUtf8Lossy [0x61, 0xE2, 0x82, 0x62, 0xFF] =
    ['a', replacement, 'b', replacement] := by decide

end Utf8
