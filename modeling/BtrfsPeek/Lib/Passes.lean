import Mathlib.Data.List.Perm.Basic
import Mathlib.Tactic.Common

/-!
# Passes over a work list

A list of tasks is gone over in passes. A task is done, which changes the state,
dropped, or left for the next pass, until a pass leaves as many as it was given
(`passes`). What one task preserves holds of the state and the tasks that are left
when the passes end (`passes_inv`), and of these none can be done then
(`passes_wait`). Their number is bounded by that of the tasks (`passes_succ`).
-/

namespace Passes

variable {ι σ : Type}

/-- What comes of a task. -/
inductive Outcome (σ : Type)
  | done (s : σ)
  | drop
  | wait

/-- One pass: the state after it, and the tasks left. -/
def pass (step : ι → σ → Outcome σ) : List ι → σ → σ × List ι
  | [], s => (s, [])
  | i :: is, s =>
    match step i s with
    | .done s' => pass step is s'
    | .drop => pass step is s
    | .wait => ((pass step is s).1, i :: (pass step is s).2)

/-- At most `n` passes. -/
def passes (step : ι → σ → Outcome σ) : (n : Nat) → List ι → σ → σ × List ι
  | 0, is, s => (s, is)
  | n + 1, is, s =>
    let r := pass step is s
    if r.2.length = is.length then r else passes step n r.2 r.1

variable {step : ι → σ → Outcome σ}

theorem pass_cons (i : ι) (is : List ι) (s : σ) : pass step (i :: is) s =
    match step i s with
    | .done s' => pass step is s'
    | .drop => pass step is s
    | .wait => ((pass step is s).1, i :: (pass step is s).2) := rfl

theorem passes_eq (n : Nat) (is : List ι) (s : σ) : passes step (n + 1) is s =
    if (pass step is s).2.length = is.length then pass step is s
    else passes step n (pass step is s).2 (pass step is s).1 := rfl

theorem pass_length_le : ∀ (is : List ι) (s : σ), (pass step is s).2.length ≤ is.length
  | [], _ => Nat.le_refl _
  | i :: is, s => by
    rw [pass]
    cases step i s with
    | done s' => exact Nat.le_succ_of_le (pass_length_le is s')
    | drop => exact Nat.le_succ_of_le (pass_length_le is s)
    | wait => exact Nat.succ_le_succ (pass_length_le is s)

/-- A pass that leaves all tasks does nothing, since none can be done. -/
theorem pass_of_length_eq : ∀ {is : List ι} {s : σ}, (pass step is s).2.length = is.length →
    pass step is s = (s, is) ∧ ∀ i ∈ is, step i s = .wait
  | [], _, _ => ⟨rfl, fun _ h => absurd h List.not_mem_nil⟩
  | i :: is, s, h => by
    rw [pass] at h ⊢
    cases hi : step i s with
    | done s' =>
      simp only [hi, List.length_cons] at h
      have : (pass step is s').2.length ≤ is.length := pass_length_le is s'
      omega
    | drop =>
      simp only [hi, List.length_cons] at h
      have : (pass step is s).2.length ≤ is.length := pass_length_le is s
      omega
    | wait =>
      simp only [hi, List.length_cons] at h ⊢
      obtain ⟨hp, hw⟩ := pass_of_length_eq (Nat.succ.inj h)
      rw [hp]
      refine ⟨rfl, fun j hj => ?_⟩
      rcases List.mem_cons.mp hj with rfl | hj
      · exact hi
      · exact hw j hj

/-- One more pass than there are tasks changes nothing. -/
theorem passes_succ : ∀ {n : Nat} {is : List ι} (s : σ), is.length ≤ n →
    passes step (n + 1) is s = passes step n is s
  | 0, is, s, h => by
    obtain rfl : is = [] := List.eq_nil_of_length_eq_zero (Nat.le_zero.mp h)
    rfl
  | n + 1, is, s, h => by
    have hle : (pass step is s).2.length ≤ is.length := pass_length_le is s
    rw [passes_eq n is s, passes_eq (n + 1) is s]
    split_ifs with hs
    · rfl
    · exact passes_succ _ (by omega)

/-- Of the tasks left none can be done. -/
theorem passes_wait : ∀ {n : Nat} {is : List ι} {s : σ}, is.length ≤ n →
    ∀ i ∈ (passes step n is s).2, step i (passes step n is s).1 = .wait
  | 0, is, s, h, i, hi => by
    obtain rfl : is = [] := List.eq_nil_of_length_eq_zero (Nat.le_zero.mp h)
    exact absurd hi List.not_mem_nil
  | n + 1, is, s, h, i, hi => by
    have hle : (pass step is s).2.length ≤ is.length := pass_length_le is s
    rw [passes] at hi ⊢
    split_ifs at hi ⊢ with hs
    · obtain ⟨hp, hw⟩ := pass_of_length_eq hs
      rw [hp] at hi ⊢
      exact hw i hi
    · exact passes_wait (by omega) i hi

section invariant

/-- `J` of a state and the tasks that are left, in any order, is kept by each task. -/
structure Kept (step : ι → σ → Outcome σ) (J : σ → List ι → Prop) : Prop where
  perm : ∀ {s : σ} {is js : List ι}, is.Perm js → J s is → J s js
  done : ∀ {s s' : σ} {i : ι} {is : List ι}, J s (i :: is) → step i s = .done s' → J s' is
  drop : ∀ {s : σ} {i : ι} {is : List ι}, J s (i :: is) → step i s = .drop → J s is

variable {J : σ → List ι → Prop}

theorem pass_inv (h : Kept step J) : ∀ {is : List ι} {s : σ} (left : List ι), J s (is ++ left) →
    J (pass step is s).1 ((pass step is s).2 ++ left)
  | [], _, _, hj => hj
  | i :: is, s, left, hj => by
    rw [pass]
    cases hi : step i s with
    | done s' => exact pass_inv h left (h.done hj hi)
    | drop => exact pass_inv h left (h.drop hj hi)
    | wait =>
      have hmid : J s (is ++ i :: left) := h.perm List.perm_middle.symm hj
      have := pass_inv h (i :: left) hmid
      exact h.perm List.perm_middle this

theorem passes_inv (h : Kept step J) : ∀ {n : Nat} {is : List ι} {s : σ}, J s is →
    J (passes step n is s).1 (passes step n is s).2
  | 0, _, _, hj => hj
  | n + 1, is, s, hj => by
    have hpass : J (pass step is s).1 ((pass step is s).2 ++ []) :=
      pass_inv h [] (by rwa [List.append_nil])
    rw [List.append_nil] at hpass
    rw [passes]
    split_ifs
    · exact hpass
    · exact passes_inv h hpass

end invariant

end Passes
