import Mathlib.Algebra.Order.Ring.Nat
import Mathlib.Tactic.Ring

/-!
# Byte strings

Slices of a byte string (`slice`), and naturals in a fixed number of
little-endian bytes (`ofLE`, `toLE`) with their round trips.
-/

/-- A byte string. -/
abbrev Bytes := List UInt8

namespace Bytes

/-- The `len` bytes at `off`, fewer where the string ends first. -/
def slice (b : Bytes) (off len : Nat) : Bytes := (b.drop off).take len

theorem length_slice (b : Bytes) (off len : Nat) :
    (slice b off len).length = min len (b.length - off) := by
  simp [slice]

theorem length_slice_of_le {b : Bytes} {off len : Nat} (h : off + len ≤ b.length) :
    (slice b off len).length = len := by
  rw [length_slice]; omega

theorem slice_getElem? {b : Bytes} {off len i : Nat} (h : i < len) :
    (slice b off len)[i]? = b[off + i]? := by
  rw [slice, List.getElem?_take_of_lt h, List.getElem?_drop]

/-- The part of a concatenation that starts where its second string does. -/
theorem slice_append_right (a b : Bytes) (off len : Nat) :
    slice (a ++ b) (a.length + off) len = slice b off len := by
  rw [slice, slice, ← List.drop_drop, List.drop_left]

/-- `b` has `s` at `off`. -/
def HasAt (b : Bytes) (off : Nat) (s : Bytes) : Prop :=
  ∃ before after, b = before ++ (s ++ after) ∧ before.length = off

namespace HasAt

variable {b s t : Bytes} {off : Nat}

theorem whole (b : Bytes) : HasAt b 0 b := ⟨[], [], by simp, rfl⟩

theorem left (h : HasAt b off (s ++ t)) : HasAt b off s := by
  obtain ⟨u, v, rfl, hu⟩ := h
  exact ⟨u, t ++ v, by rw [List.append_assoc], hu⟩

theorem right (h : HasAt b off (s ++ t)) : HasAt b (off + s.length) t := by
  obtain ⟨u, v, rfl, hu⟩ := h
  refine ⟨u ++ s, v, by simp only [List.append_assoc], ?_⟩
  rw [List.length_append, hu]

theorem le (h : HasAt b off s) : off + s.length ≤ b.length := by
  obtain ⟨u, v, rfl, rfl⟩ := h
  simp only [List.length_append]; omega

theorem slice_eq (h : HasAt b off s) : slice b off s.length = s := by
  obtain ⟨u, v, rfl, rfl⟩ := h
  have := slice_append_right u (s ++ v) 0 s.length
  rw [Nat.add_zero] at this
  rw [this, slice, List.drop_zero, List.take_left]

theorem append (h : HasAt b off s) (h' : HasAt b (off + s.length) t) : HasAt b off (s ++ t) := by
  obtain ⟨u, v, rfl, rfl⟩ := h
  obtain ⟨u', v', he, hu⟩ := h'
  rw [← List.append_assoc] at he
  have hinj := List.append_inj he (by rw [List.length_append, hu])
  exact ⟨u, v', by rw [hinj.2, List.append_assoc], rfl⟩

end HasAt

theorem hasAt_slice {b : Bytes} {off len : Nat} (h : off + len ≤ b.length) :
    HasAt b off (slice b off len) := by
  refine ⟨b.take off, (b.drop off).drop len, ?_, by simp; omega⟩
  rw [slice, List.take_append_drop, List.take_append_drop]

theorem hasAt_iff {b s : Bytes} {off : Nat} (h : off ≤ b.length) : HasAt b off s ↔ s <+: b.drop off := by
  constructor
  · rintro ⟨u, v, rfl, rfl⟩
    rw [List.drop_left]
    exact List.prefix_append _ _
  · rintro ⟨v, hv⟩
    exact ⟨b.take off, v, by rw [hv, List.take_append_drop], by simp; omega⟩

/-! ## Little-endian naturals -/

/-- The natural with these little-endian bytes. -/
def ofLE : Bytes → Nat
  | [] => 0
  | b :: bs => b.toNat + 256 * ofLE bs

/-- The `w` little-endian bytes of `n`; the bits above `8 * w` are dropped. -/
def toLE : Nat → Nat → Bytes
  | 0, _ => []
  | w + 1, n => UInt8.ofNat n :: toLE w (n / 256)

@[simp] theorem length_toLE (w n : Nat) : (toLE w n).length = w := by
  induction w generalizing n with
  | zero => rfl
  | succ w ih => simp only [toLE, List.length_cons, ih]

theorem ofLE_lt (b : Bytes) : ofLE b < 256 ^ b.length := by
  induction b with
  | nil => simp [ofLE]
  | cons x xs ih =>
    have hx : x.toNat < 256 := x.toNat_lt
    rw [ofLE, List.length_cons, pow_succ]
    omega

theorem ofLE_toLE (w n : Nat) : ofLE (toLE w n) = n % 256 ^ w := by
  induction w generalizing n with
  | zero => simp [toLE, ofLE, Nat.mod_one]
  | succ w ih =>
    have hx : (UInt8.ofNat n).toNat = n % 256 := by simp
    rw [toLE, ofLE, ih, hx, pow_succ', Nat.mod_mul]

theorem ofLE_toLE_of_lt {w n : Nat} (h : n < 256 ^ w) : ofLE (toLE w n) = n := by
  rw [ofLE_toLE, Nat.mod_eq_of_lt h]

theorem toLE_ofLE (b : Bytes) : toLE b.length (ofLE b) = b := by
  induction b with
  | nil => rfl
  | cons x xs ih =>
    have hx : x.toNat < 256 := x.toNat_lt
    rw [List.length_cons, ofLE, toLE, show (x.toNat + 256 * ofLE xs) / 256 = ofLE xs by omega, ih]
    congr 1
    apply UInt8.toNat_inj.mp
    simp

end Bytes
