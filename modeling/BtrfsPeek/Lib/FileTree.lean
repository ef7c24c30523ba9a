import Mathlib.Data.List.Basic
import Mathlib.Logic.Function.Basic
import Mathlib.Tactic.Common

/-!
# Trees of files

The files of a host are numbered nodes, of which directories name others. A path is
walked from a node, and the links on the way are followed.

`Grows` says that of a tree only some directories were changed, and these lost nothing.
Paths then lead where they led (`Grows.walk`), so that it can be said of a path once and
for all where it leads.
-/

namespace FileTree

variable {κ γ ι : Type}

/-- A component of a path. -/
inductive Step (κ : Type)
  | up
  | name (x : κ)
  deriving DecidableEq

/-- What a link leads to. -/
structure Target (κ : Type) where
  absolute : Bool
  path : List (Step κ)

inductive Body (κ γ : Type)
  | file (data : γ)
  | dir (parent : Nat) (entries : κ → Option Nat)
  | link (target : Target κ)

def Body.setEntry [DecidableEq κ] (x : κ) (m : Option Nat) : Body κ γ → Body κ γ
  | .dir parent entries => .dir parent (Function.update entries x m)
  | b => b

/-- `info` is what else there is to a file, such as when it was modified. -/
structure Node (κ γ ι : Type) where
  body : Body κ γ
  info : ι

/-- No names are in it. -/
def Node.Bare (v : Node κ γ ι) : Prop := ∀ parent entries, v.body = .dir parent entries → ∀ x, entries x = none

structure Tree (κ γ ι : Type) where
  nodes : List (Node κ γ ι)

namespace Tree

variable (t : Tree κ γ ι)

/-- What the next node's number will be. -/
def size : Nat := t.nodes.length

def node (n : Nat) : Option (Node κ γ ι) := t.nodes[n]?

def body (n : Nat) : Option (Body κ γ) := (t.node n).map Node.body

def isDir (n : Nat) : Bool :=
  match t.body n with
  | some (.dir _ _) => true
  | _ => false

def isLink (n : Nat) : Bool :=
  match t.body n with
  | some (.link _) => true
  | _ => false

/-- What a directory has under a name. -/
def lookup (d : Nat) (x : κ) : Option Nat :=
  match t.body d with
  | some (.dir _ entries) => entries x
  | _ => none

/-- One step from a directory. -/
def child (d : Nat) : Step κ → Option Nat
  | .name x => t.lookup d x
  | .up =>
    match t.body d with
    | some (.dir parent _) => some parent
    | _ => none

/-! ## Paths -/

/-- How far a path is gone before a link. -/
inductive Stage (κ : Type)
  | arrived (n : Nat)
  /-- A link in `dir`, with what of the path comes after it. -/
  | link (dir : Nat) (target : Target κ) (rest : List (Step κ))
  | stuck

def advance : (n : Nat) → List (Step κ) → Stage κ
  | n, [] => .arrived n
  | n, s :: path =>
    match t.child n s with
    | none => .stuck
    | some m =>
      match t.body m with
      | none => .stuck
      | some (.link target) => .link n target path
      | some _ => advance m path

/-- What one more component makes of it. -/
def goOn (s : Step κ) : Stage κ → Stage κ
  | .arrived d => t.advance d [s]
  | .link d target rest => .link d target (rest ++ [s])
  | .stuck => .stuck

/-- Where a path leads. A host gives up when it has followed so many links; node 0 is the
root. -/
def walk : (links n : Nat) → List (Step κ) → Option Nat
  | 0, n, path =>
    match t.advance n path with
    | .arrived m => some m
    | _ => none
  | links + 1, n, path =>
    match t.advance n path with
    | .arrived m => some m
    | .link dir target rest => walk links (if target.absolute then 0 else dir) (target.path ++ rest)
    | .stuck => none

/-- The directory that a path leads to, and the name in it that the path ends with. -/
def spot (links n : Nat) (path : List (Step κ)) : Option (Nat × κ) :=
  match path.getLast? with
  | some (.name x) =>
    match t.walk links n path.dropLast with
    | some d => if t.isDir d then some (d, x) else none
    | none => none
  | _ => none

/-- What is at a path; a link that it ends with is not followed. -/
def find (links n : Nat) (path : List (Step κ)) : Option Nat :=
  match path.getLast? with
  | some (.name _) => (t.spot links n path).bind fun s => t.lookup s.1 s.2
  | _ => t.walk links n path

/-- Where a file that is made at a path is to be: the path may end with a link, and that
one with another. It is there already, or only the directory is. -/
def place (walks : Nat) : (links n : Nat) → List (Step κ) → Option (Nat ⊕ Nat × κ)
  | links, n, path =>
    match t.spot walks n path with
    | none => none
    | some (d, x) =>
      match t.lookup d x with
      | none => some (.inr (d, x))
      | some m =>
        match t.body m, links with
        | some (.link target), links + 1 =>
          place walks links (if target.absolute then 0 else d) target.path
        | some (.link _), 0 => none
        | _, _ => some (.inl m)

/-! ## Changes -/

def add (x : Node κ γ ι) : Tree κ γ ι := ⟨t.nodes ++ [x]⟩

def alter (n : Nat) (f : Node κ γ ι → Node κ γ ι) : Tree κ γ ι := ⟨t.nodes.modify n f⟩

/-- What a directory has under a name is another, or nothing. -/
def setEntry [DecidableEq κ] (d : Nat) (x : κ) (m : Option Nat) : Tree κ γ ι :=
  t.alter d fun node => { node with body := node.body.setEntry x m }

section changes

variable {t} {n m d d' : Nat} {x y : κ}

theorem size_of_node {v : Node κ γ ι} (h : t.node n = some v) : n < t.size :=
  (List.getElem?_eq_some_iff.mp h).1

theorem node_add (v : Node κ γ ι) :
    (t.add v).node n = if n = t.size then some v else t.node n := by
  show (t.nodes ++ [v])[n]? = if n = t.nodes.length then some v else t.nodes[n]?
  split_ifs with hn
  · rw [hn, List.getElem?_append_right (Nat.le_refl _)]
    simp
  · by_cases hlt : n < t.nodes.length
    · rw [List.getElem?_append_left hlt]
    · rw [List.getElem?_append_right (by omega), List.getElem?_eq_none (by simp; omega),
        List.getElem?_eq_none (by omega)]

theorem node_alter (f : Node κ γ ι → Node κ γ ι) :
    (t.alter m f).node n = if m = n then (t.node n).map f else t.node n := by
  show (t.nodes.modify m f)[n]? = if m = n then (t.nodes[n]?).map f else t.nodes[n]?
  rw [List.getElem?_modify]
  split_ifs <;> cases t.nodes[n]? <;> rfl

theorem node_alter_of_ne (f : Node κ γ ι → Node κ γ ι) (h : m ≠ n) :
    (t.alter m f).node n = t.node n := by rw [node_alter, if_neg h]

@[simp] theorem size_add (v : Node κ γ ι) : (t.add v).size = t.size + 1 := by simp [size, add]

@[simp] theorem size_alter (f : Node κ γ ι → Node κ γ ι) : (t.alter m f).size = t.size := by
  simp [size, alter]

theorem isDir_iff : t.isDir n = true ↔ ∃ parent entries, t.body n = some (.dir parent entries) := by
  unfold isDir
  cases h : t.body n with
  | none => simp
  | some b => cases b <;> simp

theorem isDir_congr {u : Tree κ γ ι} (h : t.body n = u.body m) : t.isDir n = u.isDir m := by
  rw [isDir, isDir, h]

theorem lookup_of_dir {parent : Nat} {entries : κ → Option Nat} (h : t.body d = some (.dir parent entries)) :
    t.lookup d x = entries x := by
  unfold lookup
  rw [h]

theorem dir_of_lookup (h : t.lookup d x = some n) :
    ∃ parent entries, t.body d = some (.dir parent entries) ∧ entries x = some n := by
  unfold lookup at h
  split at h
  · rename_i parent entries hbody
    exact ⟨parent, entries, hbody, h⟩
  · cases h

theorem body_of_node {v : Node κ γ ι} (h : t.node n = some v) : t.body n = some v.body := by
  rw [body, h]
  rfl

theorem node_of_body {b : Body κ γ} (h : t.body n = some b) : ∃ v, t.node n = some v ∧ v.body = b :=
  Option.map_eq_some_iff.mp h

theorem lookup_congr {u : Tree κ γ ι} (h : t.body d = u.body d) : t.lookup d x = u.lookup d x := by
  rw [lookup, lookup, h]

theorem body_size (t : Tree κ γ ι) : t.body t.size = none := by
  rw [body, node, size, List.getElem?_eq_none (Nat.le_refl _)]
  rfl

theorem body_add (v : Node κ γ ι) : (t.add v).body n = if n = t.size then some v.body else t.body n := by
  rw [body, node_add]
  split_ifs <;> rfl

/-- What is new has no names in it. -/
theorem lookup_add {v : Node κ γ ι} (hv : v.Bare) :
    (t.add v).lookup d x = t.lookup d x := by
  by_cases hd : d = t.size
  · have hnone : t.lookup d x = none := by
      rw [lookup, hd, body_size]
    have hbody : (t.add v).body d = some v.body := by rw [body_add, if_pos hd]
    rw [hnone, lookup, hbody]
    cases hb : v.body with
    | dir parent entries => exact hv parent entries hb x
    | file data => rfl
    | link l => rfl
  · exact lookup_congr (by rw [body_add, if_neg hd])

theorem body_alter (f : Node κ γ ι → Node κ γ ι) (h : ∀ v, t.node m = some v → (f v).body = v.body) :
    (t.alter m f).body n = t.body n := by
  rw [body, node_alter, body]
  split_ifs with hm
  · subst hm
    cases hv : t.node m with
    | none => rfl
    | some v => simp [h v hv]
  · rfl

theorem body_alter_self {b b' : Body κ γ} (h : t.body n = some b) (f : Node κ γ ι → Node κ γ ι)
    (hf : ∀ v, (f v).body = b') : (t.alter n f).body n = some b' := by
  obtain ⟨v, hv, -⟩ := node_of_body h
  rw [body, node_alter, if_pos rfl, hv]
  simp [hf]

/-- What is no directory, and becomes none, has no part in where names lead. -/
theorem lookup_alter {f : Node κ γ ι → Node κ γ ι} (hd : t.isDir m = false)
    (hf : ∀ v, t.node m = some v → ∀ parent entries, (f v).body ≠ .dir parent entries) :
    (t.alter m f).lookup d x = t.lookup d x := by
  by_cases hm : m = d
  · subst hm
    have hnone {u : Tree κ γ ι} (hu : u.isDir m = false) : u.lookup m x = none := by
      cases hl : u.lookup m x with
      | none => rfl
      | some n =>
        obtain ⟨parent, entries, hbody, -⟩ := dir_of_lookup hl
        rw [isDir_iff.mpr ⟨parent, entries, hbody⟩] at hu
        cases hu
    rw [hnone hd]
    refine hnone ?_
    by_contra hdir
    obtain ⟨parent, entries, hbody⟩ := isDir_iff.mp (Bool.not_eq_false _ ▸ hdir)
    rw [body, node_alter, if_pos rfl] at hbody
    cases hv : t.node m with
    | none => simp [hv] at hbody
    | some v =>
      rw [hv] at hbody
      exact hf v hv parent entries (Option.some.inj hbody)
  · exact lookup_congr (by rw [body, node_alter_of_ne f hm, body])

variable [DecidableEq κ]

@[simp] theorem size_setEntry (o : Option Nat) : (t.setEntry d x o).size = t.size := size_alter _

theorem node_setEntry_of_ne (o : Option Nat) (h : d ≠ n) : (t.setEntry d x o).node n = t.node n :=
  node_alter_of_ne _ h

theorem body_setEntry_of_ne (o : Option Nat) (h : d ≠ n) : (t.setEntry d x o).body n = t.body n := by
  rw [body, node_setEntry_of_ne o h, body]

theorem body_setEntry_self (o : Option Nat) :
    (t.setEntry d x o).body d = (t.body d).map (Body.setEntry x o) := by
  rw [body, body, setEntry, node_alter, if_pos rfl]
  cases t.node d <;> rfl

theorem body_setEntry {parent : Nat} {entries : κ → Option Nat} (o : Option Nat)
    (h : t.body d = some (.dir parent entries)) :
    (t.setEntry d x o).body d = some (.dir parent (Function.update entries x o)) := by
  rw [body_setEntry_self, h]
  rfl

theorem isDir_setEntry (o : Option Nat) : (t.setEntry d x o).isDir n = t.isDir n := by
  by_cases hn : d = n
  · subst hn
    rw [isDir, isDir, body_setEntry_self]
    cases t.body d with
    | none => rfl
    | some b => cases b <;> rfl
  · exact isDir_congr (body_setEntry_of_ne o hn)

theorem lookup_setEntry (o : Option Nat) (hd : t.isDir d = true) :
    (t.setEntry d x o).lookup d' y = if d' = d ∧ y = x then o else t.lookup d' y := by
  obtain ⟨parent, entries, hbody⟩ := isDir_iff.mp hd
  by_cases h : d' = d
  · subst h
    rw [lookup_of_dir (body_setEntry o hbody), lookup_of_dir hbody, Function.update_apply]
    simp
  · rw [if_neg fun hh => h hh.1, lookup, lookup, body_setEntry_of_ne o (Ne.symm h)]

end changes

/-! ## Longer paths -/

section paths

variable {t} {k n m d : Nat} {x : κ} {s : Step κ} {path : List (Step κ)}

/-- Paths are walked by what the nodes are, not by what else there is to them. -/
theorem advance_congr {u : Tree κ γ ι} (h : ∀ n, t.body n = u.body n) (n : Nat) (path : List (Step κ)) :
    t.advance n path = u.advance n path := by
  induction path generalizing n with
  | nil => rfl
  | cons s path ih =>
    have hchild : t.child n s = u.child n s := by
      cases s with
      | name x => exact lookup_congr (h n)
      | up => rw [child, child, h]
    unfold advance
    rw [hchild]
    simp only [h, ih]

theorem walk_congr {u : Tree κ γ ι} (h : ∀ n, t.body n = u.body n) : ∀ (k n : Nat) (path : List (Step κ)),
    t.walk k n path = u.walk k n path
  | 0, n, path => by
    unfold walk
    rw [advance_congr h]
  | k + 1, n, path => by
    unfold walk
    rw [advance_congr h]
    simp only [walk_congr h k]

theorem advance_append (n : Nat) (path : List (Step κ)) (s : Step κ) :
    t.advance n (path ++ [s]) = t.goOn s (t.advance n path) := by
  induction path generalizing n with
  | nil => rfl
  | cons a path ih =>
    rw [List.cons_append]
    unfold advance
    cases t.child n a with
    | none => rfl
    | some m =>
      dsimp only
      cases t.body m with
      | none => rfl
      | some b =>
        cases b with
        | link l => rfl
        | file data => exact ih m
        | dir parent entries => exact ih m

/-- One step further, to what is no link. -/
theorem walk_append (hs : t.advance d [s] = .arrived m) : ∀ {k n : Nat} {path : List (Step κ)},
    t.walk k n path = some d → t.walk k n (path ++ [s]) = some m
  | 0, n, path, h => by
    unfold walk at h ⊢
    rw [advance_append]
    cases ha : t.advance n path <;> rw [ha] at h <;> cases h
    simp [goOn, hs]
  | k + 1, n, path, h => by
    unfold walk at h ⊢
    rw [advance_append]
    cases ha : t.advance n path with
    | arrived d' =>
      rw [ha] at h
      cases h
      simp [goOn, hs]
    | link d' l rest =>
      rw [ha] at h
      show t.walk k _ (l.path ++ (rest ++ [s])) = some m
      rw [← List.append_assoc]
      exact walk_append hs h
    | stuck => simp [ha] at h

/-- What a path leads to is come by through what it leads to without its end. -/
theorem walk_of_append : ∀ {k n : Nat} {path : List (Step κ)}, t.walk k n (path ++ [s]) = some m →
    ∃ d, t.walk k n path = some d
  | 0, n, path, h => by
    unfold walk at h ⊢
    rw [advance_append] at h
    cases ha : t.advance n path with
    | arrived d => exact ⟨d, rfl⟩
    | link d l rest => simp [ha, goOn] at h
    | stuck => simp [ha, goOn] at h
  | k + 1, n, path, h => by
    unfold walk at h ⊢
    rw [advance_append] at h
    cases ha : t.advance n path with
    | arrived d => exact ⟨d, rfl⟩
    | link d l rest =>
      rw [ha] at h
      refine walk_of_append (k := k) ?_
      rw [List.append_assoc]
      exact h
    | stuck => simp [ha, goOn] at h

/-- A step that leads nowhere. -/
theorem walk_stuck (hs : t.advance d [s] = .stuck) : ∀ {k n : Nat} {path : List (Step κ)},
    t.walk k n path = some d → t.walk k n (path ++ [s]) = none
  | 0, n, path, h => by
    unfold walk at h ⊢
    rw [advance_append]
    cases ha : t.advance n path <;> rw [ha] at h <;> cases h
    simp [goOn, hs]
  | k + 1, n, path, h => by
    unfold walk at h ⊢
    rw [advance_append]
    cases ha : t.advance n path with
    | arrived d' =>
      rw [ha] at h
      cases h
      simp [goOn, hs]
    | link d' l rest =>
      rw [ha] at h
      show t.walk k _ (l.path ++ (rest ++ [s])) = none
      rw [← List.append_assoc]
      exact walk_stuck hs h
    | stuck => simp [ha] at h

theorem advance_name (hx : t.lookup d x = some m) {b : Body κ γ} (hb : t.body m = some b)
    (hl : ∀ l, b ≠ .link l) : t.advance d [.name x] = .arrived m := by
  have hchild : t.child d (.name x) = some m := hx
  unfold advance
  rw [hchild]
  dsimp only
  rw [hb]
  cases b with
  | link l => exact absurd rfl (hl l)
  | file data => rfl
  | dir parent entries => rfl

theorem spot_concat : t.spot k n (path ++ [.name x]) =
    match t.walk k n path with
    | some d => if t.isDir d then some (d, x) else none
    | none => none := by
  unfold spot
  rw [List.getLast?_concat, List.dropLast_concat]

theorem path_of_spot {s : Nat × κ} (h : t.spot k n path = some s) :
    path = path.dropLast ++ [.name s.2] ∧ t.walk k n path.dropLast = some s.1 ∧ t.isDir s.1 = true := by
  unfold spot at h
  cases hlast : path.getLast? with
  | none => simp [hlast] at h
  | some last =>
    rw [hlast] at h
    cases last with
    | up => cases h
    | name y =>
      dsimp only at h
      cases hw : t.walk k n path.dropLast with
      | none => simp [hw] at h
      | some d =>
        rw [hw] at h
        dsimp only at h
        split_ifs at h with hd
        cases h
        exact ⟨(List.dropLast_append_getLast? _ hlast).symm, rfl, hd⟩

theorem isDir_of_spot {s : Nat × κ} (h : t.spot k n path = some s) : t.isDir s.1 = true :=
  (path_of_spot h).2.2

/-- What a name leads to is where the path leads that ends with it, if it is no link. -/
theorem walk_of_spot (h : t.spot k n path = some (d, x)) (hx : t.lookup d x = some m) {b : Body κ γ}
    (hb : t.body m = some b) (hl : ∀ l, b ≠ .link l) : t.walk k n path = some m := by
  obtain ⟨hpath, hw, -⟩ := path_of_spot h
  rw [hpath]
  exact walk_append (advance_name hx hb hl) hw

/-- A name leads nowhere that is free, or what it names is not there. -/
theorem walk_of_spot_free (h : t.spot k n path = some (d, x)) (hx : ∀ m, t.lookup d x = some m → t.body m = none) :
    t.walk k n path = none := by
  obtain ⟨hpath, hw, -⟩ := path_of_spot h
  have hstuck : t.advance d [.name x] = .stuck := by
    have hchild : t.child d (.name x) = t.lookup d x := rfl
    unfold advance
    rw [hchild]
    cases hl : t.lookup d x with
    | none => rfl
    | some m => simp [hx m hl]
  rw [hpath]
  exact walk_stuck hstuck hw

theorem find_concat : t.find k n (path ++ [.name x]) =
    (t.spot k n (path ++ [.name x])).bind fun s => t.lookup s.1 s.2 := by
  unfold find
  rw [List.getLast?_concat]

/-- Where a name is free, a file is made under it. -/
theorem place_of_free {walks : Nat} (h : t.spot walks n path = some (d, x)) (hx : t.lookup d x = none) :
    t.place walks k n path = some (.inr (d, x)) := by
  unfold place
  rw [h]
  dsimp only
  rw [hx]

end paths

/-! ## Trees that grow -/

/-- Only directories of `S` have changed, and they have lost nothing. -/
structure Grows (S : Nat → Prop) (t u : Tree κ γ ι) : Prop where
  same : ∀ n v, t.node n = some v → ¬ S n ∨ t.isDir n = false → u.node n = some v
  dir : ∀ n parent entries, t.body n = some (.dir parent entries) →
    ∃ entries', u.body n = some (.dir parent entries') ∧ ∀ x m, entries x = some m → entries' x = some m

namespace Grows

variable {S S' : Nat → Prop} {t u w : Tree κ γ ι} {n m d k : Nat} {x : κ} {path : List (Step κ)}

theorem refl (S : Nat → Prop) (t : Tree κ γ ι) : t.Grows S t :=
  ⟨fun _ _ h _ => h, fun _ _ _ h => ⟨_, h, fun _ _ hx => hx⟩⟩

theorem isDir (h : t.Grows S u) (hn : t.isDir n = true) : u.isDir n = true := by
  obtain ⟨parent, entries, hbody⟩ := isDir_iff.mp hn
  obtain ⟨entries', hbody', -⟩ := h.dir n parent entries hbody
  exact isDir_iff.mpr ⟨parent, entries', hbody'⟩

theorem isDir_eq (h : t.Grows S u) {v : Node κ γ ι} (hn : t.node n = some v) : u.isDir n = t.isDir n := by
  cases hd : t.isDir n with
  | true => exact h.isDir hd
  | false =>
    have hu := h.same n v hn (.inr hd)
    rw [← hd]
    exact isDir_congr (by rw [body_of_node hu, body_of_node hn])

/-- What is no directory holds what it held. -/
theorem body_same (h : t.Grows S u) {b : Body κ γ} (hn : t.body n = some b)
    (hb : ∀ parent entries, b ≠ .dir parent entries) : u.body n = some b := by
  obtain ⟨v, hv, hbody⟩ := node_of_body hn
  have hdir : t.isDir n = false := by
    rw [Tree.isDir, hn]
    cases b with
    | dir parent entries => exact absurd rfl (hb parent entries)
    | _ => rfl
  rw [body_of_node (h.same n v hv (.inr hdir)), hbody]

theorem node_isSome (h : t.Grows S u) {v : Node κ γ ι} (hn : t.node n = some v) :
    ∃ v', u.node n = some v' := by
  cases hd : t.isDir n with
  | true =>
    obtain ⟨parent, entries, hbody⟩ := isDir_iff.mp (h.isDir hd)
    obtain ⟨v', hv', -⟩ := node_of_body hbody
    exact ⟨v', hv'⟩
  | false => exact ⟨v, h.same n v hn (.inr hd)⟩

theorem size_le (h : t.Grows S u) : t.size ≤ u.size := by
  by_contra hlt
  obtain ⟨v, hv⟩ : ∃ v, t.node u.size = some v :=
    ⟨_, List.getElem?_eq_getElem (show u.size < t.nodes.length by unfold size at hlt ⊢; omega)⟩
  obtain ⟨v', hv'⟩ := h.node_isSome hv
  exact absurd (size_of_node hv') (Nat.lt_irrefl _)

theorem trans (h : t.Grows S u) (h' : u.Grows S w) : t.Grows S w := by
  refine ⟨fun n v hv hn => ?_, fun n parent entries hbody => ?_⟩
  · refine h'.same n v (h.same n v hv hn) (hn.imp_right fun hd => ?_)
    rw [h.isDir_eq hv, hd]
  · obtain ⟨entries', hbody', hle⟩ := h.dir n parent entries hbody
    obtain ⟨entries'', hbody'', hle'⟩ := h'.dir n parent entries' hbody'
    exact ⟨entries'', hbody'', fun x m hx => hle' x m (hle x m hx)⟩

/-- Nodes that the first tree does not have need not be told of. -/
theorem mono (h : t.Grows S u) (hS : ∀ n, S n → n < t.size → S' n) : t.Grows S' u :=
  ⟨fun n v hv hn => h.same n v hv (hn.imp_left fun hn hs => hn (hS n hs (size_of_node hv))), h.dir⟩

theorem lookup (h : t.Grows S u) (hx : t.lookup d x = some n) : u.lookup d x = some n := by
  obtain ⟨parent, entries, hbody, hx⟩ := dir_of_lookup hx
  obtain ⟨entries', hbody', hle⟩ := h.dir d parent entries hbody
  rw [lookup_of_dir hbody']
  exact hle x n hx

theorem child (h : t.Grows S u) {s : Step κ} (hs : t.child d s = some n) : u.child d s = some n := by
  cases s with
  | name x => exact h.lookup hs
  | up =>
    unfold Tree.child at hs
    dsimp only at hs
    split at hs
    · rename_i parent entries hbody
      obtain ⟨entries', hbody', -⟩ := h.dir d parent entries hbody
      rw [Tree.child, hbody']
      exact hs
    · cases hs

theorem advance (h : t.Grows S u) (hp : t.advance n path ≠ .stuck) :
    u.advance n path = t.advance n path := by
  induction path generalizing n with
  | nil => rfl
  | cons s path ih =>
    unfold Tree.advance at hp ⊢
    cases hs : t.child n s with
    | none => simp [hs] at hp
    | some m =>
      rw [h.child hs]
      rw [hs] at hp
      dsimp only at hp ⊢
      cases hm : t.body m with
      | none => simp [hm] at hp
      | some b =>
        obtain ⟨v, hv, rfl⟩ := node_of_body hm
        rw [hm] at hp
        have hsame (hd : t.isDir m = false) : u.body m = some v.body :=
          body_of_node (h.same m v hv (.inr hd))
        cases hb : v.body with
        | file data =>
          rw [hsame (by rw [Tree.isDir, hm, hb]), hb]
          rw [hb] at hp
          exact ih hp
        | link l => rw [hsame (by rw [Tree.isDir, hm, hb]), hb]
        | dir parent entries =>
          rw [hb] at hm hp
          obtain ⟨entries', hbody', -⟩ := h.dir m parent entries hm
          rw [hbody']
          exact ih hp

/-- A path that leads somewhere still leads there. -/
theorem walk (h : t.Grows S u) : ∀ {k n : Nat} {path : List (Step κ)}, t.walk k n path = some m →
    u.walk k n path = some m
  | 0, n, path, hw => by
    unfold Tree.walk at hw ⊢
    have hne : t.advance n path ≠ .stuck := fun he => by simp [he] at hw
    rwa [h.advance hne]
  | k + 1, n, path, hw => by
    unfold Tree.walk at hw ⊢
    have hne : t.advance n path ≠ .stuck := fun he => by simp [he] at hw
    rw [h.advance hne]
    cases ha : t.advance n path with
    | arrived m' => rwa [ha] at hw
    | stuck => exact absurd ha hne
    | link d l rest =>
      rw [ha] at hw
      exact h.walk hw

theorem spot (h : t.Grows S u) {s : Nat × κ} (hs : t.spot k n path = some s) :
    u.spot k n path = some s := by
  unfold Tree.spot at hs ⊢
  cases hl : path.getLast? with
  | none => simp [hl] at hs
  | some last =>
    rw [hl] at hs
    cases last with
    | up => cases hs
    | name x =>
      dsimp only at hs ⊢
      cases hw : t.walk k n path.dropLast with
      | none => simp [hw] at hs
      | some d =>
        rw [h.walk hw]
        rw [hw] at hs
        dsimp only at hs ⊢
        split_ifs at hs with hd
        rw [if_pos (h.isDir hd)]
        exact hs

theorem find (h : t.Grows S u) (hf : t.find k n path = some m) : u.find k n path = some m := by
  unfold Tree.find at hf ⊢
  cases hl : path.getLast? with
  | none =>
    rw [hl] at hf
    exact h.walk hf
  | some last =>
    rw [hl] at hf
    cases last with
    | up => exact h.walk hf
    | name x =>
      obtain ⟨s, hs, hx⟩ := Option.bind_eq_some_iff.mp hf
      exact Option.bind_eq_some_iff.mpr ⟨s, h.spot hs, h.lookup hx⟩

/-! What may be done to the later tree. -/

theorem add (h : t.Grows S u) (v : Node κ γ ι) : t.Grows S (u.add v) := by
  have hold {n v'} (hn : u.node n = some v') : (u.add v).node n = some v' := by
    rw [node_add, if_neg (Nat.ne_of_lt (size_of_node hn)), hn]
  refine ⟨fun n v hv hn => hold (h.same n v hv hn), fun n parent entries hbody => ?_⟩
  obtain ⟨entries', hbody', hle⟩ := h.dir n parent entries hbody
  obtain ⟨v', hv', hb⟩ := node_of_body hbody'
  exact ⟨entries', by rw [body_of_node (hold hv'), hb], hle⟩

/-- A node that is new may be altered at will. -/
theorem alter_new (h : t.Grows S u) (hm : t.size ≤ m) (f : Node κ γ ι → Node κ γ ι) :
    t.Grows S (u.alter m f) := by
  refine ⟨fun n v hv hn => ?_, fun n parent entries hbody => ?_⟩
  · have := size_of_node hv
    rw [node_alter_of_ne f (by omega)]
    exact h.same n v hv hn
  · obtain ⟨v, hv, -⟩ := node_of_body hbody
    have := size_of_node hv
    obtain ⟨entries', hbody', hle⟩ := h.dir n parent entries hbody
    exact ⟨entries', by rw [body, node_alter_of_ne f (by omega)]; exact hbody', hle⟩

/-- Of a directory that may change, so may what else there is to it. -/
theorem alter_info (h : t.Grows S u) (hm : S m) (hd : t.isDir m = true) (f : ι → ι) :
    t.Grows S (u.alter m fun v => { v with info := f v.info }) := by
  refine ⟨fun n v hv hn => ?_, fun n parent entries hbody => ?_⟩
  · have hne : m ≠ n := by
      rintro rfl
      rcases hn with hn | hn
      · exact hn hm
      · rw [hd] at hn
        cases hn
    rw [node_alter_of_ne _ hne]
    exact h.same n v hv hn
  · obtain ⟨entries', hbody', hle⟩ := h.dir n parent entries hbody
    obtain ⟨v, hv, hb⟩ := node_of_body hbody'
    refine ⟨entries', ?_, hle⟩
    rw [body, node_alter, hv]
    split_ifs <;> simp [hb]

/-- A name that was free may be given, and taken back. -/
theorem setEntry [DecidableEq κ] (h : t.Grows S u) (hd : S d) (hx : t.lookup d x = none) (o : Option Nat) :
    t.Grows S (u.setEntry d x o) := by
  refine ⟨fun n v hv hn => ?_, fun n parent entries hbody => ?_⟩
  · by_cases hne : d = n
    · subst hne
      rcases hn with hn | hn
      · exact absurd hd hn
      · -- What is no directory is not changed.
        have hu := h.same d v hv (.inr hn)
        rw [Tree.setEntry, node_alter, if_pos rfl, hu, Option.map_some]
        rw [Tree.isDir, body_of_node hv] at hn
        obtain ⟨b, info⟩ := v
        cases b with
        | dir parent entries => cases hn
        | file data => rfl
        | link l => rfl
    · rw [node_setEntry_of_ne o hne]
      exact h.same n v hv hn
  · obtain ⟨entries', hbody', hle⟩ := h.dir n parent entries hbody
    by_cases hne : d = n
    · subst hne
      refine ⟨_, body_setEntry o hbody', fun y m hy => ?_⟩
      have hxy : y ≠ x := by
        rintro rfl
        rw [lookup_of_dir hbody, hy] at hx
        cases hx
      rw [Function.update_of_ne hxy]
      exact hle y m hy
    · exact ⟨entries', by rw [body_setEntry_of_ne o hne]; exact hbody', hle⟩

end Grows

end Tree

end FileTree
