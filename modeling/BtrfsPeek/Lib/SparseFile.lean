import Mathlib.Data.List.Basic

/-!
# Files with holes

A file is written at a position, which may be moved on past what is written. What it
stands for (`StandsFor`) is what is written and blanks up to the position; writing and
moving on add to that, and a file that is resized to its length holds it.
-/

namespace BtrfsPeek.SparseFile

variable {A : Type} (z : A)

/-- `b` with `d` written over it at `pos`, after blanks where it is shorter. -/
def overwrite (b : List A) (pos : Nat) (d : List A) : List A :=
  match d with
  | [] => b
  | d => (b ++ List.replicate (pos - b.length) z).take pos ++ (d ++ b.drop (pos + d.length))

/-- `b` cut off at a length, or filled up to it. -/
def resize (b : List A) (n : Nat) : List A := b.take n ++ List.replicate (n - b.length) z

/-- What is written so far, with the position, stands for `out`. -/
structure StandsFor (b : List A) (pos : Nat) (out : List A) : Prop where
  length_le : b.length ≤ pos
  filled : b ++ List.replicate (pos - b.length) z = out

variable {z}

theorem standsFor_nil : StandsFor z [] 0 [] := ⟨Nat.le_refl 0, rfl⟩

namespace StandsFor

variable {b out : List A} {pos : Nat}

theorem length_eq (h : StandsFor z b pos out) : out.length = pos := by
  have := h.length_le
  rw [← h.filled, List.length_append, List.length_replicate]
  omega

theorem write (h : StandsFor z b pos out) (d : List A) :
    StandsFor z (overwrite z b pos d) (pos + d.length) (out ++ d) := by
  cases d with
  | nil =>
    rw [List.append_nil]
    exact h
  | cons x d =>
    have hle := h.length_le
    have hwritten : overwrite z b pos (x :: d) = out ++ (x :: d) := by
      show (b ++ List.replicate (pos - b.length) z).take pos ++ (x :: d ++ b.drop _) = _
      rw [h.filled, ← h.length_eq, List.take_length, List.drop_of_length_le, List.append_nil]
      rw [h.length_eq]
      omega
    have hlength : (out ++ (x :: d)).length = pos + (x :: d).length := by
      rw [List.length_append, h.length_eq]
    rw [hwritten]
    exact ⟨Nat.le_of_eq hlength, by rw [hlength, Nat.sub_self, List.replicate_zero, List.append_nil]⟩

theorem skip (h : StandsFor z b pos out) (n : Nat) :
    StandsFor z b (pos + n) (out ++ List.replicate n z) := by
  have hle := h.length_le
  refine ⟨by omega, ?_⟩
  rw [← h.filled, List.append_assoc, List.replicate_append_replicate]
  congr 2
  omega

/-- A file that is resized to the length of what it stands for holds it. -/
theorem resize_eq (h : StandsFor z b pos out) : resize z b out.length = out := by
  rw [resize, h.length_eq, List.take_of_length_le h.length_le, h.filled]

/-- To whatever length it is resized, it is what it stands for, resized. -/
theorem resize (h : StandsFor z b pos out) (n : Nat) :
    SparseFile.resize z b n = SparseFile.resize z out n := by
  have hle := h.length_le
  rw [← h.filled, SparseFile.resize, SparseFile.resize, List.take_append, List.take_replicate,
    List.append_assoc, List.replicate_append_replicate, List.length_append, List.length_replicate]
  congr 2
  omega

end StandsFor

end BtrfsPeek.SparseFile
