import Mathlib.Data.List.Basic
import Mathlib.Tactic.Common

/-!
# Maps in the order of their keys' first insertion

A key that is inserted again keeps its place, and has its new value. `entries_ofList` says
that nothing is lost or moved where the keys are different.
-/

namespace BtrfsPeek

/-- A map. It has each key once. -/
structure IndexMap (κ ν : Type) where
  entries : List (κ × ν)
  nodup : (entries.map Prod.fst).Nodup

namespace IndexMap

variable {κ ν : Type} [DecidableEq κ]

/-- The entries with `v` at `k`. -/
def put (k : κ) (v : ν) : List (κ × ν) → List (κ × ν)
  | [] => [(k, v)]
  | x :: l => if x.1 = k then (k, v) :: l else x :: put k v l

theorem put_of_not_mem {k : κ} {v : ν} {l : List (κ × ν)} (h : k ∉ l.map Prod.fst) :
    put k v l = l ++ [(k, v)] := by
  induction l with
  | nil => rfl
  | cons x l ih =>
    rw [List.map_cons, List.mem_cons, not_or] at h
    rw [put, if_neg (Ne.symm h.1), ih h.2, List.cons_append]

theorem keys_put_of_mem {k : κ} {v : ν} {l : List (κ × ν)} (h : k ∈ l.map Prod.fst) :
    (put k v l).map Prod.fst = l.map Prod.fst := by
  induction l with
  | nil => exact absurd h List.not_mem_nil
  | cons x l ih =>
    rw [put]
    split_ifs with hx
    · simp [hx]
    · rw [List.map_cons, List.mem_cons] at h
      rw [List.map_cons, List.map_cons, ih (h.resolve_left (Ne.symm hx))]

theorem nodup_put {k : κ} {v : ν} {l : List (κ × ν)} (h : (l.map Prod.fst).Nodup) :
    ((put k v l).map Prod.fst).Nodup := by
  by_cases hk : k ∈ l.map Prod.fst
  · rwa [keys_put_of_mem hk]
  · rw [put_of_not_mem hk, List.map_append]
    refine List.nodup_append.mpr ⟨h, by simp, fun a ha b hb => ?_⟩
    rw [List.map_singleton, List.mem_singleton] at hb
    rintro rfl
    rw [hb] at ha
    exact hk ha

def empty : IndexMap κ ν := ⟨[], List.nodup_nil⟩

def insert (m : IndexMap κ ν) (k : κ) (v : ν) : IndexMap κ ν := ⟨put k v m.entries, nodup_put m.nodup⟩

/-- What is collected from a list: the last value of each key. -/
def ofList (l : List (κ × ν)) : IndexMap κ ν := l.foldl (fun m x => m.insert x.1 x.2) empty

theorem entries_ofList {l : List (κ × ν)} (h : (l.map Prod.fst).Nodup) : (ofList l).entries = l := by
  have hfold : ∀ (l : List (κ × ν)) (m : IndexMap κ ν), ((m.entries ++ l).map Prod.fst).Nodup →
      (l.foldl (fun m x => m.insert x.1 x.2) m).entries = m.entries ++ l := by
    intro l
    induction l with
    | nil => simp
    | cons x l ih =>
      intro m hm
      have hx : x.1 ∉ m.entries.map Prod.fst := by
        rw [List.map_append, List.nodup_append] at hm
        exact fun hmem => hm.2.2 x.1 hmem x.1 (by simp) rfl
      have hput : (m.insert x.1 x.2).entries = m.entries ++ [x] := put_of_not_mem hx
      rw [List.foldl_cons, ih, hput, List.append_assoc, List.singleton_append]
      rwa [hput, List.append_assoc, List.singleton_append]
  exact hfold l empty h

end IndexMap

end BtrfsPeek
