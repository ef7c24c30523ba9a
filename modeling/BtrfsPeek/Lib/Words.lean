import Mathlib.Data.List.DropRight
import Mathlib.Data.List.Basic
import Mathlib.Tactic.Common

/-!
# Words and lines

A text is split into the words between its blanks, and into lines. `intercalate_words`
says what the words come to when they are put together again: the text without the blanks
at its ends, each run of them one. `lines_append` is what reads back a text written line
by line.
-/

namespace BtrfsPeek.Words

variable {α : Type} (p : α → Bool) (a : α)

/-- What is between the blanks, which `p` holds of. -/
def words (l : List α) : List (List α) := (l.splitOnP p).filter (!·.isEmpty)

/-- Without the blanks at its ends. -/
def trim (l : List α) : List α := (l.dropWhile p).rdropWhile p

/-- With `a` for each run of blanks. -/
def collapse : List α → List α
  | [] => []
  | [x] => [if p x then a else x]
  | x :: y :: l =>
    if p x && p y then collapse (y :: l) else (if p x then a else x) :: collapse (y :: l)

section lines

variable [DecidableEq α] (lf cr : α)

/-- Split after each line feed. -/
def splitInclusive : List α → List (List α)
  | [] => []
  | x :: l =>
    if x = lf then [x] :: splitInclusive l
    else
      match splitInclusive l with
      | [] => [[x]]
      | m :: ms => (x :: m) :: ms

/-- Without the line feed, and without a carriage return before it. -/
def unended (l : List α) : List α :=
  if l.getLast? = some lf then
    if l.dropLast.getLast? = some cr then l.dropLast.dropLast else l.dropLast
  else l

def lines (l : List α) : List (List α) := (splitInclusive lf l).map (unended lf cr)

end lines

variable {p a} {l w r s : List α} {x : α}

/-! ## Words -/

theorem words_cons_blank (h : p x = true) : words p (x :: l) = words p l := by
  simp [words, List.splitOnP_cons_eq_if_modifyHead, h]

theorem words_dropWhile (l : List α) : words p (l.dropWhile p) = words p l := by
  induction l with
  | nil => rfl
  | cons x l ih =>
    by_cases hx : p x = true
    · rw [List.dropWhile_cons_of_pos hx, ih, words_cons_blank hx]
    · rw [List.dropWhile_cons_of_neg hx]

theorem words_of_blank (h : ∀ x ∈ l, p x = true) : words p l = [] := by
  rw [← words_dropWhile, List.dropWhile_eq_nil_iff.mpr h]
  rfl

theorem words_blanks_append (hs : ∀ x ∈ s, p x = true) (l : List α) : words p (s ++ l) = words p l := by
  induction s with
  | nil => rfl
  | cons x s ih =>
    obtain ⟨hx, hs⟩ := List.forall_mem_cons.mp hs
    rw [List.cons_append, words_cons_blank hx, ih hs]

/-- A word, and what comes after it. -/
theorem words_append (hne : w ≠ []) (hw : ∀ x ∈ w, p x = false) (hr : ∀ x ∈ r.head?, p x = true) :
    words p (w ++ r) = w :: words p r := by
  cases r with
  | nil => simp [words, List.splitOnP_eq_singleton hw, hne]
  | cons y r =>
    have hy : p y = true := hr y rfl
    rw [words_cons_blank hy, words, List.splitOnP_append_cons_of_forall_mem hw y hy]
    simp [words, hne]

/-! ## Collapsing -/

theorem collapse_cons (h : p x = false) : collapse p a (x :: l) = x :: collapse p a l := by
  cases l <;> simp [collapse, h]

theorem collapse_append (hw : ∀ x ∈ w, p x = false) : collapse p a (w ++ l) = w ++ collapse p a l := by
  induction w with
  | nil => rfl
  | cons x w ih =>
    obtain ⟨hx, hw⟩ := List.forall_mem_cons.mp hw
    rw [List.cons_append, collapse_cons hx, ih hw, List.cons_append]

/-- A run of blanks. -/
theorem collapse_run (hne : s ≠ []) (hs : ∀ x ∈ s, p x = true) (hl : ∀ x ∈ l.head?, p x = false) :
    collapse p a (s ++ l) = a :: collapse p a l := by
  induction s with
  | nil => exact absurd rfl hne
  | cons x s ih =>
    obtain ⟨hx, hs⟩ := List.forall_mem_cons.mp hs
    cases s with
    | nil =>
      cases l with
      | nil => simp [collapse, hx]
      | cons y l => simp [collapse, hx, hl y rfl]
    | cons y s =>
      have hy : p y = true := hs y List.mem_cons_self
      have hrest := ih (List.cons_ne_nil y s) hs
      simp only [List.cons_append, collapse, hx, hy, Bool.and_self, if_true] at hrest ⊢
      exact hrest

/-- The only blank that is left is `a`. -/
theorem eq_of_mem_collapse {y : α} (hy : p y = true) (h : y ∈ collapse p a l) : y = a := by
  induction l using collapse.induct p with
  | case1 => exact absurd h List.not_mem_nil
  | case2 x =>
    simp only [collapse, List.mem_singleton] at h
    split_ifs at h with hx
    · exact h
    · exact absurd (h ▸ hy) hx
  | case3 x z l hblank ih =>
    simp only [collapse, hblank, if_true] at h
    exact ih h
  | case4 x z l hblank ih =>
    simp only [collapse, if_neg hblank, List.mem_cons] at h
    rcases h with h | h
    · split_ifs at h with hx
      · exact h
      · exact absurd (h ▸ hy) hx
    · exact ih h

theorem rdropWhile_append (h : ¬ ∀ x ∈ r, p x = true) : (l ++ r).rdropWhile p = l ++ r.rdropWhile p := by
  have hne : (r.reverse.dropWhile p).isEmpty = false := by
    rw [List.isEmpty_eq_false_iff, ne_eq, List.dropWhile_eq_nil_iff]
    simpa using h
  simp [List.rdropWhile, List.reverse_append, List.dropWhile_append, hne]

theorem rdropWhile_append_blank (hr : ∀ x ∈ r, p x = true) : (l ++ r).rdropWhile p = l.rdropWhile p := by
  have hnil : r.reverse.dropWhile p = [] := List.dropWhile_eq_nil_iff.mpr (by simpa using hr)
  rw [List.rdropWhile, List.reverse_append, List.dropWhile_append_of_pos (by simpa using hr)]
  rfl

theorem rdropWhile_word (hw : ∀ x ∈ w, p x = false) : w.rdropWhile p = w :=
  List.rdropWhile_eq_self_iff.mpr fun hne => by simp [hw _ (List.getLast_mem hne)]

theorem trim_cons_blank (hx : p x = true) : trim p (x :: l) = trim p l := by
  rw [trim, List.dropWhile_cons_of_pos hx, trim]

/-- A word, and what comes after it. -/
theorem trim_append (hne : w ≠ []) (hw : ∀ x ∈ w, p x = false) :
    trim p (w ++ r) = (w ++ r).rdropWhile p := by
  cases w with
  | nil => exact absurd rfl hne
  | cons x w =>
    have hx : ¬ p x = true := by simp [hw x List.mem_cons_self]
    rw [trim, List.cons_append, List.dropWhile_cons_of_neg hx]

theorem mem_head?_of_isPrefix {m : List α} (h : m <+: l) (hx : x ∈ m.head?) : x ∈ l.head? := by
  obtain ⟨t, rfl⟩ := h
  cases m with
  | nil => simp at hx
  | cons y m => exact hx

/-- A run of blanks before something: it comes to one `a`, and there is more after it. -/
theorem collapse_rdropWhile (hr : ∀ x ∈ r.head?, p x = true) (hsome : ¬ ∀ x ∈ r, p x = true) :
    collapse p a (r.rdropWhile p) = a :: collapse p a (trim p r) ∧ collapse p a (trim p r) ≠ [] := by
  have hsplit := List.takeWhile_append_dropWhile (p := p) (l := r)
  have hs : ∀ y ∈ r.takeWhile p, p y = true := fun y hy => List.mem_takeWhile_imp hy
  have hne : r.takeWhile p ≠ [] := by
    cases r with
    | nil => exact absurd (fun _ h => absurd h List.not_mem_nil) hsome
    | cons y r => simp [hr y rfl]
  have hm : ¬ ∀ y ∈ r.dropWhile p, p y = true := by
    intro h
    rw [← hsplit] at hsome
    exact hsome fun y hy => (List.mem_append.mp hy).elim (hs y) (h y)
  have hhead : ∀ y ∈ (trim p r).head?, p y = false := by
    intro y hy
    have := List.head?_dropWhile_not p r
    rw [mem_head?_of_isPrefix (List.rdropWhile_prefix p _) hy] at this
    simpa using this
  have hleft : trim p r ≠ [] := fun h => hm (List.rdropWhile_eq_nil_iff.mp h)
  constructor
  · have hrun := collapse_run (a := a) hne hs hhead
    rwa [trim, ← rdropWhile_append hm, hsplit] at hrun
  · obtain ⟨y, m, hy⟩ := List.exists_cons_of_ne_nil hleft
    rw [hy, collapse_cons (hhead y (by rw [hy]; rfl))]
    exact List.cons_ne_nil _ _

/-- The words of a text, with one `a` between them. -/
theorem intercalate_words (l : List α) : [a].intercalate (words p l) = collapse p a (trim p l) := by
  cases l with
  | nil => rfl
  | cons x l =>
    by_cases hx : p x = true
    · rw [words_cons_blank hx, trim_cons_blank hx]
      exact intercalate_words l
    -- the first word `w`, and the rest `r`
    have hsplit := List.takeWhile_append_dropWhile (p := fun y => !p y) (l := x :: l)
    have hlen : ((x :: l).dropWhile fun y => !p y).length ≤ l.length := by
      rw [List.dropWhile_cons_of_pos (by simpa using hx)]
      exact List.length_dropWhile_le _ _
    have hw : ∀ y ∈ (x :: l).takeWhile fun y => !p y, p y = false := fun y hy => by
      simpa using List.mem_takeWhile_imp hy
    have hne : ((x :: l).takeWhile fun y => !p y) ≠ [] := by simp [hx]
    have hr : ∀ y ∈ ((x :: l).dropWhile fun y => !p y).head?, p y = true := fun y hy => by
      have := List.head?_dropWhile_not (fun y => !p y) (x :: l)
      rw [hy] at this
      simpa using this
    generalize (x :: l).takeWhile (fun y => !p y) = w at *
    generalize (x :: l).dropWhile (fun y => !p y) = r at *
    have ih := intercalate_words r
    rw [← hsplit, words_append hne hw hr, trim_append hne hw]
    by_cases hblank : ∀ y ∈ r, p y = true
    · rw [words_of_blank hblank, rdropWhile_append_blank hblank, rdropWhile_word hw]
      simpa [collapse] using (collapse_append (a := a) (l := []) hw).symm
    · obtain ⟨hcollapse, hmore⟩ := collapse_rdropWhile (a := a) hr hblank
      rw [rdropWhile_append hblank, collapse_append hw, hcollapse, ← ih]
      have hwords : words p r ≠ [] := by
        intro hnil
        rw [hnil] at ih
        exact hmore ih.symm
      rw [List.intercalate_cons_of_ne_nil hwords]
      simp
termination_by l.length

/-! ## Lines -/

section lines

variable [DecidableEq α] {lf cr : α}

theorem splitInclusive_append (h : lf ∉ w) (l : List α) :
    splitInclusive lf (w ++ lf :: l) = (w ++ [lf]) :: splitInclusive lf l := by
  induction w with
  | nil => rw [List.nil_append, splitInclusive, if_pos rfl, List.nil_append]
  | cons x w ih =>
    rw [List.mem_cons, not_or] at h
    rw [List.cons_append, splitInclusive, if_neg (Ne.symm h.1), ih h.2]
    rfl

/-- A line is read back, if it has neither in it. -/
theorem lines_append (h : lf ∉ w) (hcr : cr ∉ w) (l : List α) :
    lines lf cr (w ++ lf :: l) = w :: lines lf cr l := by
  have hw : w.getLast? ≠ some cr := fun hlast => hcr (List.mem_of_getLast? hlast)
  rw [lines, splitInclusive_append h, List.map_cons, unended, lines]
  simp [hw]

end lines

end BtrfsPeek.Words
