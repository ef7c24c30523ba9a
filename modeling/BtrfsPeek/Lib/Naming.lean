import Mathlib.Data.List.Nodup
import Mathlib.Tactic.Common

/-!
# Names that are not taken

Each of some things in turn may be given a name, which depends on what is taken
then: the keys of the names given before (`turns`, `given`). If no name's key was
taken, no two have the same key (`nodup_given`).

Where there are candidates for a name, with different keys, the first as many and
one more as are taken hold a free one (`exists_free`).
-/

namespace Naming

variable {α ν κ : Type}

section given

variable (give : List κ → α → Option ν) (key : ν → κ)

/-- What is taken when `a` has had its turn. -/
def takenAfter (taken : List κ) (a : α) : List κ :=
  match give taken a with
  | some b => key b :: taken
  | none => taken

/-- Each with what is taken at its turn. -/
def turns : (taken : List κ) → List α → List (α × List κ)
  | _, [] => []
  | taken, a :: as => (a, taken) :: turns (takenAfter give key taken a) as

/-- Those that are given a name, with it. -/
def given (taken : List κ) (as : List α) : List (α × ν) :=
  (turns give key taken as).filterMap fun x => (give x.2 x.1).map (Prod.mk x.1)

/-- What is taken after all of them. -/
def takenBy (taken : List κ) (as : List α) : List κ := as.foldl (takenAfter give key) taken

variable {give key} {taken : List κ} {a : α} {b : ν} {as bs : List α}

theorem turns_cons (taken : List κ) (a : α) (as : List α) : turns give key taken (a :: as) =
    (a, taken) :: turns give key (takenAfter give key taken a) as := rfl

theorem mem_of_mem_turns {x : α × List κ} : ∀ {taken : List κ} {as : List α},
    x ∈ turns give key taken as → x.1 ∈ as
  | _, [], h => absurd h List.not_mem_nil
  | _, a :: as, h => by
    rcases List.mem_cons.mp h with rfl | h
    · exact List.mem_cons_self
    · exact List.mem_cons_of_mem _ (mem_of_mem_turns h)

theorem given_of_some (h : give taken a = some b) :
    given give key taken (a :: as) = (a, b) :: given give key (key b :: taken) as := by
  simp [given, turns_cons, takenAfter, h]

theorem given_of_none (h : give taken a = none) :
    given give key taken (a :: as) = given give key taken as := by
  simp [given, turns_cons, takenAfter, h]

theorem given_append (taken : List κ) : ∀ (as bs : List α), given give key taken (as ++ bs) =
    given give key taken as ++ given give key (takenBy give key taken as) bs := by
  intro as
  induction as generalizing taken with
  | nil => simp [given, turns, takenBy]
  | cons a as ih =>
    intro bs
    rw [List.cons_append]
    cases h : give taken a with
    | some b =>
      rw [given_of_some h, given_of_some h, ih, List.cons_append, takenBy, takenBy, List.foldl_cons,
        takenAfter, h]
    | none => rw [given_of_none h, given_of_none h, ih, takenBy, takenBy, List.foldl_cons, takenAfter, h]

/-- What is taken was taken, or is the key of a name given. -/
theorem mem_takenBy {k : κ} : ∀ {as : List α} {taken : List κ}, k ∈ takenBy give key taken as ↔
    k ∈ taken ∨ ∃ x ∈ given give key taken as, key x.2 = k := by
  intro as
  induction as with
  | nil => simp [given, turns, takenBy]
  | cons a as ih =>
    intro taken
    rw [takenBy, List.foldl_cons, ← takenBy, ih, takenAfter]
    cases h : give taken a with
    | some b => rw [given_of_some h]; simp [or_assoc, or_left_comm, eq_comm]
    | none => rw [given_of_none h]

/-- A name that is given was given at some turn. -/
theorem exists_of_mem_given {x : α × ν} (h : x ∈ given give key taken as) :
    x.1 ∈ as ∧ ∃ taken', give taken' x.1 = some x.2 := by
  induction as generalizing taken with
  | nil => simp [given, turns] at h
  | cons a as ih =>
    cases hg : give taken a with
    | some b =>
      rw [given_of_some hg, List.mem_cons] at h
      rcases h with rfl | h
      · exact ⟨List.mem_cons_self, taken, hg⟩
      · exact ⟨List.mem_cons_of_mem _ (ih h).1, (ih h).2⟩
    | none =>
      rw [given_of_none hg] at h
      exact ⟨List.mem_cons_of_mem _ (ih h).1, (ih h).2⟩

/-- Names whose keys were free have different keys, none of which was taken. -/
theorem nodup_given (hfree : ∀ taken a b, give taken a = some b → key b ∉ taken) :
    ∀ {as : List α} {taken : List κ},
      ((given give key taken as).map fun x => key x.2).Nodup ∧
        ∀ x ∈ given give key taken as, key x.2 ∉ taken := by
  intro as
  induction as with
  | nil => simp [given, turns]
  | cons a as ih =>
    intro taken
    cases h : give taken a with
    | some b =>
      rw [given_of_some h]
      obtain ⟨hnodup, hnot⟩ := @ih (key b :: taken)
      simp only [List.map_cons, List.nodup_cons, List.mem_map, List.mem_cons]
      refine ⟨⟨?_, hnodup⟩, ?_⟩
      · rintro ⟨x, hx, hkey⟩
        exact hnot x hx (by simp [hkey])
      · rintro x (rfl | hx)
        · exact hfree taken a b h
        · exact fun hin => hnot x hx (List.mem_cons_of_mem _ hin)
    | none =>
      rw [given_of_none h]
      exact ih

end given

/-- Among different keys, one more than are taken, one is free. -/
theorem exists_free {candidate : Nat → κ} (hinj : Function.Injective candidate)
    (taken : List κ) : ∃ n ≤ taken.length, candidate n ∉ taken := by
  by_contra hall
  push Not at hall
  have hnodup : ((List.range (taken.length + 1)).map candidate).Nodup :=
    List.Nodup.map hinj List.nodup_range
  have hsub : (List.range (taken.length + 1)).map candidate ⊆ taken := by
    intro k hk
    obtain ⟨n, hn, rfl⟩ := List.mem_map.mp hk
    exact hall n (by simpa [Nat.lt_succ_iff] using hn)
  have hle := hnodup.length_le_of_subset hsub
  rw [List.length_map, List.length_range] at hle
  omega

end Naming
