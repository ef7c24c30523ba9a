import Mathlib.Data.List.Basic
import Mathlib.Tactic.Common
import Mathlib.Tactic.SplitIfs

/-!
# Painting a window

A window of a function is the list of its values from one place to another. A
painter goes along a list of patches with a brush at `pos` and paints up to
`stop`: a patch that does not begin before `stop` ends the work, one that
announces an end at or before the brush is passed over, and of any other what
lies between the brush and `stop` is painted, after a blank up to where it
begins. `shade` is what the painter leaves at each place.

* `shade_slice`: starting late and stopping early paints a part of the whole
  picture, where no patch is longer than it announces across the start, and no
  empty one stands in the way (`Clear`).
* `shade_of_apart`: patches in order that do not overlap are painted as they
  are.
-/

namespace Paint

variable {α : Type}

/-- The values of `f` from `lo` up to `hi`. -/
def window (f : Nat → α) (lo hi : Nat) : List α := (List.range (hi - lo)).map fun i => f (lo + i)

@[simp] theorem length_window (f : Nat → α) (lo hi : Nat) : (window f lo hi).length = hi - lo := by
  simp [window]

theorem window_of_le {f : Nat → α} {lo hi : Nat} (h : hi ≤ lo) : window f lo hi = [] := by
  rw [window, Nat.sub_eq_zero_of_le h]; rfl

theorem window_congr {f g : Nat → α} {lo hi : Nat} (h : ∀ p, lo ≤ p → p < hi → f p = g p) :
    window f lo hi = window g lo hi :=
  List.map_congr_left fun i hi' => by
    have := List.mem_range.mp hi'
    exact h _ (by omega) (by omega)

theorem window_append (f : Nat → α) {lo mid hi : Nat} (h₁ : lo ≤ mid) (h₂ : mid ≤ hi) :
    window f lo mid ++ window f mid hi = window f lo hi := by
  simp only [window, show hi - lo = (mid - lo) + (hi - mid) by omega, List.range_add,
    List.map_append, List.map_map]
  congr 1
  refine List.map_congr_left fun i _ => ?_
  simp only [Function.comp, show lo + (mid - lo + i) = mid + i by omega]

theorem window_const (a : α) (lo hi : Nat) :
    window (fun _ => a) lo hi = List.replicate (hi - lo) a := by
  simp [window]

theorem window_getElem? (f : Nat → α) {lo hi i : Nat} (h : i < hi - lo) :
    (window f lo hi)[i]? = some (f (lo + i)) := by
  simp [window, h]

/-- Windows of one length with the same values in them. -/
theorem window_shift {f g : Nat → α} {a b n : Nat} (h : ∀ i < n, f (a + i) = g (b + i)) :
    window f a (a + n) = window g b (b + n) := by
  rw [window, window, Nat.add_sub_cancel_left, Nat.add_sub_cancel_left]
  exact List.map_congr_left fun i hi => h i (List.mem_range.mp hi)

/-- Two windows over the same places are one if and only if their values are. -/
theorem window_eq_iff {f g : Nat → α} {lo hi : Nat} :
    window f lo hi = window g lo hi ↔ ∀ p, lo ≤ p → p < hi → f p = g p := by
  refine ⟨fun h p hp hp' => ?_, window_congr⟩
  have hi := congrArg (·[p - lo]?) h
  rw [window_getElem? f (by omega), window_getElem? g (by omega), Nat.add_sub_of_le hp] at hi
  exact Option.some.inj hi

/-- A part of a window is a window. -/
theorem window_part (f : Nat → α) {lo hi start stop : Nat} (h₁ : lo ≤ start) (h₂ : stop ≤ hi) :
    ((window f lo hi).drop (start - lo)).take (stop - start) = window f start stop := by
  apply List.ext_getElem?
  intro i
  by_cases h : i < stop - start
  · rw [List.getElem?_take_of_lt h, List.getElem?_drop, window_getElem? f h,
      window_getElem? f (by omega), show lo + (start - lo + i) = start + i by omega]
  · rw [List.getElem?_eq_none, List.getElem?_eq_none] <;> simp <;> omega

/-! ## Patches -/

/-- Values for the places from `lo` to `hi`, announced to end at `declared`. -/
structure Patch (α : Type) where
  lo : Nat
  declared : Nat
  hi : Nat
  val : Nat → α

/-- Where the brush is after a patch. -/
def Patch.brush (x : Patch α) (stop pos : Nat) : Nat :=
  if max x.lo pos < min x.hi stop then min x.hi stop else pos

/-- What is left at `p` by painting up to `stop` from `pos`. -/
def shade (blank : α) (stop : Nat) : List (Patch α) → (pos p : Nat) → α
  | [], _, _ => blank
  | x :: xs, pos, p =>
    if pos ≥ stop ∨ x.lo ≥ stop then blank
    else if x.declared ≤ pos then shade blank stop xs pos p
    else if p < x.brush stop pos then (if p < x.lo then blank else x.val p)
    else shade blank stop xs (x.brush stop pos) p

section slice

variable {blank : α} {size start stop : Nat}

/-- Before every patch the picture is blank. -/
theorem shade_before {p : Nat} : ∀ {xs : List (Patch α)} {pos : Nat}, (∀ x ∈ xs, p < x.lo) →
    shade blank stop xs pos p = blank
  | [], _, _ => rfl
  | x :: xs, pos, h => by
    have hx := h x List.mem_cons_self
    have ih (pos : Nat) : shade blank stop xs pos p = blank :=
      shade_before fun y hy => h y (List.mem_cons_of_mem _ hy)
    rw [shade]
    split_ifs
    · rfl
    · exact ih pos
    · rfl
    · exact ih _

/-- Where the brush is at least, after a patch that was not too late for it. -/
def Patch.reach (x : Patch α) : Nat := if x.lo < x.hi then min x.declared x.hi else 0

/-- With the brush at `c` or past it, no patch that is still to be painted and
announces an end at or before `start` goes on past it, and no empty one between
`stop` and `size` comes before one that begins below `stop`. -/
def Clear (start stop size : Nat) : (c : Nat) → List (Patch α) → Prop
  | _, [] => True
  | c, x :: xs =>
    (c < x.declared → x.declared ≤ start → x.hi ≤ start) ∧
    (c < stop → stop ≤ x.lo → x.lo < size → x.hi ≤ x.lo → ∀ y ∈ xs, stop ≤ y.lo) ∧
    Clear start stop size (max c x.reach) xs

/-- At each place from `start` up to `stop`, painting these only leaves what
painting everything leaves. -/
theorem shade_slice (hs : stop ≤ size) {p : Nat} (hp : start ≤ p) (hp' : p < stop) :
    ∀ {xs : List (Patch α)} {c w : Nat}, (∀ x ∈ xs, x.lo ≤ x.declared) →
      Clear start stop size c xs → c ≤ w → w ≤ p →
      shade blank stop xs (max w start) p = shade blank size xs w p
  | [], _, _, _, _, _, _ => rfl
  | x :: xs, c, w, hd, hc, hcw, hw => by
    have hdx := hd x List.mem_cons_self
    obtain ⟨hax, hnx, hc'⟩ := hc
    have ih {v : Nat} (hcv : max c x.reach ≤ v) (hv : v ≤ p) :=
      shade_slice hs hp hp' (fun y hy => hd y (List.mem_cons_of_mem _ hy)) hc' hcv hv
    rw [shade, shade]
    by_cases hlo : stop ≤ x.lo
    · -- The part is done; the rest of the whole is blank here.
      rw [if_pos (Or.inr hlo)]
      have hwhole : shade blank size xs w p = blank ∨ x.lo < x.hi ∨ size ≤ x.lo := by
        by_cases hlt : size ≤ x.lo
        · exact .inr (.inr hlt)
        by_cases hhi : x.hi ≤ x.lo
        · refine .inl (shade_before fun y hy => ?_)
          have := hnx (by omega) hlo (by omega) hhi y hy
          omega
        · exact .inr (.inl (by omega))
      split_ifs with h₁ h₂ h₃ h₄
      · rfl
      · omega
      · rfl
      · omega
      · rcases hwhole with h | h | h
        · rw [Patch.brush] at h₃ ⊢
          split_ifs at h₃ ⊢
          · omega
          · exact h.symm
        · rw [Patch.brush] at h₃; split_ifs at h₃ <;> omega
        · omega
    · rw [if_neg (show ¬ (max w start ≥ stop ∨ x.lo ≥ stop) by omega),
        if_neg (show ¬ (w ≥ size ∨ x.lo ≥ size) by omega)]
      by_cases h₁ : x.declared ≤ w
      · have hreach : max c x.reach ≤ w := by rw [Patch.reach]; split_ifs <;> omega
        rw [if_pos (show x.declared ≤ max w start by omega), if_pos h₁, ih hreach hw]
      have hreach (h : ¬ p < x.brush size w) : max c x.reach ≤ x.brush size w := by
        rw [Patch.brush, Patch.reach] at *; split_ifs at * <;> omega
      by_cases h₂ : x.declared ≤ max w start
      · -- Only the part passes this patch over: it ends before the start.
        have hhi := hax (by omega) (by omega)
        have hb : ¬ p < x.brush size w := by rw [Patch.brush]; split_ifs <;> omega
        rw [if_pos h₂, if_neg h₁, if_neg hb, ← ih (hreach hb) (by omega)]
        rw [Patch.brush]
        split_ifs
        · rw [show max (min x.hi size) start = max w start by omega]
        · rfl
      · rw [if_neg h₂, if_neg h₁]
        have hiff : p < x.brush stop (max w start) ↔ p < x.brush size w := by
          simp only [Patch.brush]; split_ifs <;> omega
        by_cases h₃ : p < x.brush size w
        · rw [if_pos h₃, if_pos (hiff.mpr h₃)]
        · rw [if_neg h₃, if_neg (mt hiff.mp h₃), ← ih (hreach h₃) (by omega)]
          congr 1
          simp only [Patch.brush] at h₃ ⊢
          split_ifs at h₃ ⊢ <;> omega

end slice

/-! ## Patches in order -/

/-- The value of the patch over `p`. -/
def cover (blank : α) (xs : List (Patch α)) (p : Nat) : α :=
  match xs.find? fun x => x.lo ≤ p ∧ p < x.hi with
  | some x => x.val p
  | none => blank

theorem cover_cons_of_not {blank : α} {x : Patch α} {xs : List (Patch α)} {p : Nat}
    (h : ¬ (x.lo ≤ p ∧ p < x.hi)) : cover blank (x :: xs) p = cover blank xs p := by
  rw [cover, cover, List.find?_cons_of_neg (by simpa using h)]

theorem cover_cons_of_mem {blank : α} {x : Patch α} {xs : List (Patch α)} {p : Nat}
    (h : x.lo ≤ p ∧ p < x.hi) : cover blank (x :: xs) p = x.val p := by
  rw [cover, List.find?_cons_of_pos (by simpa using h)]

theorem cover_before {blank : α} {xs : List (Patch α)} {p : Nat} (h : ∀ x ∈ xs, p < x.lo) :
    cover blank xs p = blank := by
  rw [cover, List.find?_eq_none.mpr]
  intro x hx
  have := h x hx
  simp only [decide_eq_true_eq, not_and]; omega

/-- One begins no later than the other, and they are over no place together. -/
def Apart (x y : Patch α) : Prop := x.lo ≤ y.lo ∧ ∀ p, x.lo ≤ p → p < x.hi → ¬ (y.lo ≤ p ∧ p < y.hi)

/-- Patches in order and apart, which end where they announce it, leave at each place the
value of the patch over it. -/
theorem shade_of_apart {blank : α} {stop p : Nat} (hp : p < stop) :
    ∀ {xs : List (Patch α)} {pos : Nat}, (∀ x ∈ xs, x.declared = x.hi ∧ x.lo ≤ x.hi) →
      xs.Pairwise Apart → pos ≤ p → shade blank stop xs pos p = cover blank xs p
  | [], _, _, _, _ => rfl
  | x :: xs, pos, hd, hx, hpos => by
    obtain ⟨hdx, hlx⟩ := hd x List.mem_cons_self
    obtain ⟨hxy, hx'⟩ := List.pairwise_cons.mp hx
    have ih {pos : Nat} (h : pos ≤ p) : shade blank stop xs pos p = cover blank xs p :=
      shade_of_apart hp (fun y hy => hd y (List.mem_cons_of_mem _ hy)) hx' h
    have hbefore (h : p < x.lo) : cover blank xs p = blank :=
      cover_before fun y hy => Nat.lt_of_lt_of_le h (hxy y hy).1
    have hover (h : x.lo ≤ p) (h' : p < x.hi) : cover blank xs p = blank := by
      rw [cover, List.find?_eq_none.mpr]
      intro y hy
      have := (hxy y hy).2 p h h'
      simpa using this
    rw [shade]
    by_cases h₁ : pos ≥ stop ∨ x.lo ≥ stop
    · rw [if_pos h₁, cover_cons_of_not (by omega), hbefore (by omega)]
    rw [if_neg h₁]
    by_cases h₂ : x.declared ≤ pos
    · rw [if_pos h₂, ih hpos, cover_cons_of_not (by omega)]
    rw [if_neg h₂]
    by_cases h₃ : p < x.brush stop pos
    · have hhi : p < x.hi := by rw [Patch.brush] at h₃; split_ifs at h₃ <;> omega
      rw [if_pos h₃]
      by_cases h₄ : p < x.lo
      · rw [if_pos h₄, cover_cons_of_not (by omega), hbefore h₄]
      · rw [if_neg h₄, cover_cons_of_mem (by omega)]
    · have hout : ¬ (x.lo ≤ p ∧ p < x.hi) := by
        rw [Patch.brush] at h₃; split_ifs at h₃ <;> omega
      rw [if_neg h₃, ih (by omega), cover_cons_of_not hout]

end Paint
