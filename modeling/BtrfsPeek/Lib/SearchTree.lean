import Mathlib.Order.Lattice
import Mathlib.Tactic.Common

/-!
# Search trees

A tree of blocks, read through two relations: `Leaf p items`, the block at `p`
is a leaf with these items, and `Inner l p ptrs`, it is a node above level `l`
with these pointers. `Holds` says that the block at `p` roots a search tree with
exactly the items given, in order. Each block has a range of keys, its pointers
split that range among its children, and every child is one level down.

* `Holds.within`, `Holds.ascending`: what a tree holds is in its range and
  ascends.
* `sweep`: the items within `[min, max]` handed to a visitor in turn, until it
  stops or a key is past `max`; `sweep_append`, `sweep_below`, `sweep_above` and
  `sweep_eq_feed` say what it does to a list of items.
* `Agrees`: a search that may stop early at a pointer past `max`, beside the
  sweep of what the tree holds.
-/

namespace SearchTree

variable {K V P τ ε : Type} [LinearOrder K]

/-- `lo ≤ k < hi`, where there are such bounds. -/
def Within (lo hi : Option K) (k : K) : Prop := (∀ l ∈ lo, l ≤ k) ∧ ∀ h ∈ hi, k < h

instance (lo hi : Option K) (k : K) : Decidable (Within lo hi k) :=
  inferInstanceAs (Decidable (_ ∧ _))

/-- Strictly ascending keys. -/
def Ascending {A : Type} (l : List (K × A)) : Prop := l.Pairwise (·.1 < ·.1)

instance {A : Type} (l : List (K × A)) : Decidable (Ascending l) :=
  inferInstanceAs (Decidable (l.Pairwise _))

/-- The upper bound of the child before `rest`: the next pointer's key, or that
of the node. -/
def bound (rest : List (K × P)) (hi : Option K) : Option K :=
  match rest with
  | [] => hi
  | (k, _) :: _ => some k

/-! ## The tree -/

section tree

variable (Leaf : P → List (K × V) → Prop) (Inner : Nat → P → List (K × P) → Prop)

mutual

/-- The block at `p` is at level `l`, has the range `[lo, hi)`, and roots a tree
of `items`. -/
inductive Holds : (l : Nat) → (lo hi : Option K) → (p : P) → (items : List (K × V)) → Prop
  | leaf {lo hi : Option K} {p : P} {items : List (K × V)} :
      Leaf p items → Ascending items → (∀ x ∈ items, Within lo hi x.1) → Holds 0 lo hi p items
  | inner {l : Nat} {lo hi : Option K} {p : P} {ptrs : List (K × P)} {items : List (K × V)} :
      Inner l p ptrs → Ascending ptrs → Chain l lo hi ptrs items → Holds (l + 1) lo hi p items

/-- The children behind `ptrs` hold `items` together. -/
inductive Chain : (l : Nat) → (lo hi : Option K) → (ptrs : List (K × P)) →
    (items : List (K × V)) → Prop
  | nil {l : Nat} {lo hi : Option K} : Chain l lo hi [] []
  | cons {l : Nat} {lo hi : Option K} {k : K} {p : P} {rest : List (K × P)}
      {items more : List (K × V)} :
      Within lo hi k → Holds l (some k) (bound rest hi) p items → Chain l (some k) hi rest more →
      Chain l lo hi ((k, p) :: rest) (items ++ more)

end

end tree

variable {Leaf : P → List (K × V) → Prop} {Inner : Nat → P → List (K × P) → Prop}
  {l : Nat} {lo hi : Option K} {p : P} {k : K} {ptrs rest : List (K × P)}
  {items more : List (K × V)}

theorem Within.raise {k' : K} (h : Within lo hi k) (h' : Within (some k) hi k') :
    Within lo hi k' :=
  ⟨fun l hl => (h.1 l hl).trans (h'.1 k rfl), h'.2⟩

/-- The bound of a child is within the node's. -/
theorem Chain.within_bound (h : Chain Leaf Inner l (some k) hi rest more) {k' : K}
    (hk : Within lo (bound rest hi) k') : Within lo hi k' := by
  cases h with
  | nil => exact hk
  | cons hw => exact ⟨hk.1, fun h hh => (hk.2 _ rfl).trans (hw.2 h hh)⟩

/-- Nothing under the first pointer or after it is below its key. -/
theorem Chain.from_first (h : Chain Leaf Inner l lo hi ((k, p) :: rest) items) :
    Chain Leaf Inner l (some k) hi ((k, p) :: rest) items := by
  cases h with
  | cons hw hc hr => exact .cons ⟨fun _ h => by cases h; exact le_rfl, hw.2⟩ hc hr

mutual

/-- What a tree holds is in its range. -/
theorem Holds.within {l : Nat} {lo hi : Option K} {p : P} {items : List (K × V)} :
    Holds Leaf Inner l lo hi p items → ∀ x ∈ items, Within lo hi x.1
  | .leaf _ _ hw => hw
  | .inner _ _ hc => hc.within

theorem Chain.within {l : Nat} {lo hi : Option K} {ptrs : List (K × P)} {items : List (K × V)} :
    Chain Leaf Inner l lo hi ptrs items → ∀ x ∈ items, Within lo hi x.1
  | .nil => nofun
  | .cons hk hc hr => fun x hx => by
    rcases List.mem_append.mp hx with hx | hx
    · exact hk.raise (hr.within_bound (hc.within x hx))
    · exact hk.raise (hr.within x hx)

end

/-- What the first child holds is below what the others hold. -/
theorem Chain.split (hc : Holds Leaf Inner l (some k) (bound rest hi) p items)
    (hr : Chain Leaf Inner l (some k) hi rest more) {x y : K × V} (hx : x ∈ items) (hy : y ∈ more) :
    x.1 < y.1 := by
  cases hr with
  | nil => cases hy
  | cons hk hc' hr' =>
    have h₁ := (hc.within x hx).2 _ rfl
    have h₂ := ((Chain.cons hk hc' hr').from_first.within y hy).1 _ rfl
    exact h₁.trans_le h₂

mutual

/-- What a tree holds ascends. -/
theorem Holds.ascending {l : Nat} {lo hi : Option K} {p : P} {items : List (K × V)} :
    Holds Leaf Inner l lo hi p items → Ascending items
  | .leaf _ ha _ => ha
  | .inner _ _ hc => hc.ascending

theorem Chain.ascending {l : Nat} {lo hi : Option K} {ptrs : List (K × P)} {items : List (K × V)} :
    Chain Leaf Inner l lo hi ptrs items → Ascending items
  | .nil => List.Pairwise.nil
  | .cons _ hc hr => List.pairwise_append.mpr
    ⟨hc.ascending, hr.ascending, fun _ hx _ hy => Chain.split hc hr hx hy⟩

end

mutual

/-- What holds of the items of every leaf holds of those of the tree. -/
theorem Holds.of_leaves {R : K × V → Prop} (hleaf : ∀ p items, Leaf p items → ∀ x ∈ items, R x)
    {l : Nat} {lo hi : Option K} {p : P} {items : List (K × V)} :
    Holds Leaf Inner l lo hi p items → ∀ x ∈ items, R x
  | .leaf h _ _ => hleaf _ _ h
  | .inner _ _ hc => hc.of_leaves hleaf

theorem Chain.of_leaves {R : K × V → Prop} (hleaf : ∀ p items, Leaf p items → ∀ x ∈ items, R x)
    {l : Nat} {lo hi : Option K} {ptrs : List (K × P)} {items : List (K × V)} :
    Chain Leaf Inner l lo hi ptrs items → ∀ x ∈ items, R x
  | .nil => nofun
  | .cons _ hc hr => fun x hx => by
    rcases List.mem_append.mp hx with hx | hx
    · exact hc.of_leaves hleaf x hx
    · exact hr.of_leaves hleaf x hx

end

/-! ## Visiting the items of a range -/

/-- What is done with an item; `false` stops. -/
abbrev Visitor (K V τ ε : Type) := K → V → τ → Except ε (Bool × τ)

/-- The items in turn, until the visitor stops. -/
def feed (visit : Visitor K V τ ε) : List (K × V) → τ → Except ε (Bool × τ)
  | [], t => .ok (true, t)
  | (k, v) :: rest, t => do
    let (more, t) ← visit k v t
    if more then feed visit rest t else .ok (false, t)

/-- The items within `[min, max]`. -/
def inRange (min max : K) (items : List (K × V)) : List (K × V) :=
  items.filter fun x => min ≤ x.1 ∧ x.1 ≤ max

/-- The items of a range in turn, until the visitor stops or a key is past the
range. -/
def sweep (min max : K) (visit : Visitor K V τ ε) : List (K × V) → τ → Except ε (Bool × τ)
  | [], t => .ok (true, t)
  | (k, v) :: rest, t =>
    if k < min then sweep min max visit rest t
    else if max < k then .ok (false, t)
    else do
      let (more, t) ← visit k v t
      if more then sweep min max visit rest t else .ok (false, t)

/-- What a visitor that does not fail is handed: the items up to and including
the first it refuses. -/
def upToRefused (go : K → V → τ → Bool × τ) : List (K × V) → τ → List (K × V)
  | [], _ => []
  | (k, v) :: rest, t => (k, v) :: if (go k v t).1 then upToRefused go rest (go k v t).2 else []

/-- A visitor that also keeps what it is handed. -/
def recording (go : K → V → τ → Bool × τ) : Visitor K V (List (K × V) × τ) ε := fun k v (seen, t) =>
  .ok ((go k v t).1, (seen ++ [(k, v)], (go k v t).2))

omit [LinearOrder K] in
theorem upToRefused_of_never {go : K → V → τ → Bool × τ} (h : ∀ k v t, (go k v t).1 = true) :
    ∀ (items : List (K × V)) (t : τ), upToRefused go items t = items
  | [], _ => rfl
  | (k, v) :: rest, t => by rw [upToRefused, if_pos (h k v t), upToRefused_of_never h rest]

omit [LinearOrder K] in
theorem feed_recording (go : K → V → τ → Bool × τ) :
    ∀ (items seen : List (K × V)) (t : τ), ∃ more t',
      feed (recording go : Visitor K V _ ε) items (seen, t) =
        .ok (more, (seen ++ upToRefused go items t, t'))
  | [], seen, t => ⟨true, t, by rw [upToRefused, List.append_nil]; rfl⟩
  | (k, v) :: rest, seen, t => by
    rw [upToRefused, feed]
    simp only [recording, bind, Except.bind]
    by_cases h : (go k v t).1 = true
    · obtain ⟨more, t', ih⟩ := feed_recording go rest (seen ++ [(k, v)]) (go k v t).2
      refine ⟨more, t', ?_⟩
      rw [if_pos h, if_pos h, ih, List.append_assoc, List.singleton_append]
    · exact ⟨false, _, by rw [if_neg h, if_neg h]⟩

/-! ## Visitors that do not stop -/

/-- The lists that `f` makes of the items, one after another. -/
def gather {A : Type} (f : K → V → Except ε (List A)) : List (K × V) → Except ε (List A)
  | [] => .ok []
  | (k, v) :: rest => do
    let a ← f k v
    let as ← gather f rest
    return a ++ as

omit [LinearOrder K] in
theorem feed_gather {A : Type} {f : K → V → Except ε (List A)} {visit : Visitor K V (List A) ε}
    (h : ∀ k v as, visit k v as = (f k v).map fun a => (true, as ++ a)) :
    ∀ (items : List (K × V)) (as : List A),
      (feed visit items as).map Prod.snd = (gather f items).map (as ++ ·)
  | [], as => by simp [feed, gather, Except.map]
  | (k, v) :: rest, as => by
    rw [feed, gather, h]
    cases f k v with
    | error e => rfl
    | ok a =>
      show (feed visit rest (as ++ a)).map Prod.snd = _
      rw [feed_gather h rest]
      cases hg : gather f rest with
      | error e => simp [bind, Except.bind, Except.map]
      | ok as => simp [bind, Except.bind, Except.map, pure, Except.pure]

omit [LinearOrder K] in
/-- What is gathered is what was made of some item. -/
theorem mem_gather {A : Type} {f : K → V → Except ε (List A)} {a : A} :
    ∀ {items : List (K × V)} {as : List A}, gather f items = .ok as →
      (a ∈ as ↔ ∃ x ∈ items, ∃ l, f x.1 x.2 = .ok l ∧ a ∈ l)
  | [], as, h => by
    cases h
    simp
  | (k, v) :: rest, as, h => by
    rw [gather] at h
    cases hf : f k v with
    | error e => rw [hf] at h; cases h
    | ok l =>
      cases hg : gather f rest with
      | error e => rw [hf, hg] at h; cases h
      | ok ls =>
        rw [hf, hg] at h
        cases h
        simp [mem_gather hg, hf]

omit [LinearOrder K] in
theorem gather_ok {A : Type} {f : K → V → Except ε (List A)} :
    ∀ {items : List (K × V)}, (∀ x ∈ items, ∃ as, f x.1 x.2 = .ok as) →
      ∃ as, gather f items = .ok as
  | [], _ => ⟨[], rfl⟩
  | (k, v) :: rest, h => by
    obtain ⟨a, ha⟩ := h (k, v) List.mem_cons_self
    obtain ⟨as, has⟩ := gather_ok fun x hx => h x (List.mem_cons_of_mem _ hx)
    have ha : f k v = .ok a := ha
    exact ⟨a ++ as, by rw [gather, ha, has]; rfl⟩

omit [LinearOrder K] in
/-- A visitor that keeps going folds the items. -/
theorem feed_foldlM {f : τ → K × V → Except ε τ} {visit : Visitor K V τ ε}
    (h : ∀ k v t, (visit k v t) = (f t (k, v)).map fun t => (true, t)) :
    ∀ (items : List (K × V)) (t : τ), (feed visit items t).map Prod.snd = items.foldlM f t
  | [], _ => rfl
  | (k, v) :: rest, t => by
    rw [feed, List.foldlM_cons, h]
    cases f t (k, v) with
    | error e => rfl
    | ok t' => exact feed_foldlM h rest t'

section sweeps

variable {min max : K} {visit : Visitor K V τ ε} {t t' : τ} {a b : List (K × V)}

/-- The second of two lists is swept if the first was to its end. -/
theorem sweep_append (a b : List (K × V)) (t : τ) : sweep min max visit (a ++ b) t =
    (do let (more, t) ← sweep min max visit a t
        if more then sweep min max visit b t else .ok (false, t)) := by
  induction a generalizing t with
  | nil => rfl
  | cons x rest ih =>
    obtain ⟨k, v⟩ := x
    simp only [List.cons_append, sweep]
    split_ifs with h₁ h₂
    · exact ih t
    · rfl
    · simp only [bind, Except.bind]
      cases visit k v t with
      | error e => rfl
      | ok r =>
        obtain ⟨more, t'⟩ := r
        cases more with
        | true => exact ih t'
        | false => rfl

theorem sweep_append_of_true (h : sweep min max visit a t = .ok (true, t')) :
    sweep min max visit (a ++ b) t = sweep min max visit b t' := by
  rw [sweep_append, h]; rfl

theorem sweep_append_of_false (h : sweep min max visit a t = .ok (false, t')) :
    sweep min max visit (a ++ b) t = .ok (false, t') := by
  rw [sweep_append, h]; rfl

theorem sweep_append_of_error {e : ε} (h : sweep min max visit a t = .error e) :
    sweep min max visit (a ++ b) t = .error e := by
  rw [sweep_append, h]; rfl

/-- Items below the range are passed over. -/
theorem sweep_below (h : ∀ x ∈ a, x.1 < min) : sweep min max visit a t = .ok (true, t) := by
  induction a with
  | nil => rfl
  | cons x rest ih =>
    rw [sweep, if_pos (h x List.mem_cons_self)]
    exact ih fun y hy => h y (List.mem_cons_of_mem _ hy)

/-- No item past the range is visited. -/
theorem sweep_above (h : ∀ x ∈ a, max < x.1) : ∃ more, sweep min max visit a t = .ok (more, t) := by
  induction a with
  | nil => exact ⟨true, rfl⟩
  | cons x rest ih =>
    rw [sweep]
    split_ifs with h₁ h₂
    · exact ih fun y hy => h y (List.mem_cons_of_mem _ hy)
    · exact ⟨false, rfl⟩
    · exact absurd (h x List.mem_cons_self) h₂

theorem inRange_above (h : ∀ x ∈ a, max < x.1) : inRange min max a = [] := by
  rw [inRange, List.filter_eq_nil_iff]
  intro x hx
  simp only [decide_eq_true_eq, not_and, not_le]
  exact fun _ => h x hx

theorem mem_inRange_self {x : K × V} : x ∈ inRange k k a ↔ x ∈ a ∧ x.1 = k := by
  rw [inRange, List.mem_filter, decide_eq_true_eq]
  exact and_congr_right fun _ => ⟨fun h => le_antisymm h.2 h.1, fun h => ⟨h.ge, h.le⟩⟩

/-- Of an ascending list, at most one item has a given key. -/
theorem head?_inRange_self (ha : Ascending a) {v : V} :
    (inRange k k a).head?.map Prod.snd = some v ↔ (k, v) ∈ a := by
  have hasc : Ascending (inRange k k a) := ha.sublist List.filter_sublist
  have hmem : (k, v) ∈ a ↔ (k, v) ∈ inRange k k a := by rw [mem_inRange_self]; simp
  rw [hmem]
  cases h : inRange k k a with
  | nil => simp
  | cons x rest =>
    have hx : x.1 = k := (mem_inRange_self.mp (h ▸ List.mem_cons_self : x ∈ inRange k k a)).2
    rw [h] at hasc
    constructor
    · intro hv
      cases hv; rw [← hx]; exact List.mem_cons_self
    · intro hv
      rcases List.mem_cons.mp hv with rfl | hin
      · rfl
      · exact absurd hx (ne_of_lt ((List.pairwise_cons.mp hasc).1 _ hin))

/-- The sweep of an ascending list hands the visitor the items within the range
and no others. -/
theorem sweep_eq_feed (ha : Ascending a) (t : τ) :
    (sweep min max visit a t).map Prod.snd = (feed visit (inRange min max a) t).map Prod.snd := by
  induction a generalizing t with
  | nil => rfl
  | cons x rest ih =>
    obtain ⟨k, v⟩ := x
    obtain ⟨hx, hr⟩ := List.pairwise_cons.mp ha
    rw [sweep]
    split_ifs with h₁ h₂
    · rw [ih hr, inRange, inRange, List.filter_cons_of_neg]
      simpa using fun h => absurd h (not_le.mpr h₁)
    · have habove : ∀ y ∈ (k, v) :: rest, max < y.1 := by
        rintro y (_ | ⟨_, hy⟩)
        · exact h₂
        · exact h₂.trans (hx y hy)
      rw [inRange_above habove]; rfl
    · have hin : inRange min max ((k, v) :: rest) = (k, v) :: inRange min max rest := by
        rw [inRange, List.filter_cons_of_pos]
        · rfl
        · simpa using ⟨not_lt.mp h₁, not_lt.mp h₂⟩
      rw [hin, feed]
      simp only [bind, Except.bind]
      cases visit k v t with
      | error e => rfl
      | ok r =>
        obtain ⟨more, t'⟩ := r
        cases more with
        | true => exact ih hr t'
        | false => rfl

end sweeps

/-! ## Searches -/

/-- A search came to `r` where the sweep came to `q`: the same, but that the
search may have stopped at a pointer past `max` when nothing was left to visit. -/
def Agrees (past : Prop) (r q : Except ε (Bool × τ)) : Prop :=
  r = q ∨ ∃ t, r = .ok (false, t) ∧ q = .ok (true, t) ∧ past

/-- There is room for a key past `max` in the range. -/
def Room (max : K) (lo hi : Option K) : Prop := ∃ k, Within lo hi k ∧ max < k

theorem Agrees.snd {past : Prop} {r q : Except ε (Bool × τ)} (h : Agrees past r q) :
    r.map Prod.snd = q.map Prod.snd := by
  rcases h with h | ⟨t, hr, hq, -⟩
  · rw [h]
  · rw [hr, hq]; rfl

theorem Agrees.mono {past past' : Prop} {r q : Except ε (Bool × τ)} (h : Agrees past r q)
    (hp : past → past') : Agrees past' r q := by
  rcases h with h | ⟨t, hr, hq, h⟩
  · exact .inl h
  · exact .inr ⟨t, hr, hq, hp h⟩

/-- Stopping agrees with sweeping what is past `max`. -/
theorem Agrees.stopped {past : Prop} {min max : K} {visit : Visitor K V τ ε} {t : τ}
    {a : List (K × V)} (h : ∀ x ∈ a, max < x.1) (hp : past) :
    Agrees past (.ok (false, t)) (sweep min max visit a t) := by
  obtain ⟨more, hs⟩ : ∃ more, sweep min max visit a t = _ := sweep_above h
  rw [hs]
  cases more with
  | true => exact .inr ⟨t, rfl, rfl, hp⟩
  | false => exact .inl rfl

section children

variable {min max : K} {visit : Visitor K V τ ε} {t t' : τ} {r : Except ε (Bool × τ)}

theorem Room.raise (hk : Within lo hi k) (h : Room max (some k) hi) : Room max lo hi :=
  let ⟨k', hk', hm⟩ := h
  ⟨k', hk.raise hk', hm⟩

/-- A child below the range is skipped. -/
theorem Agrees.skip (hk : Within lo hi k) (hb : ∀ x ∈ items, x.1 < min)
    (h : Agrees (Room max (some k) hi) r (sweep min max visit more t)) :
    Agrees (Room max lo hi) r (sweep min max visit (items ++ more) t) := by
  rw [sweep_append_of_true (sweep_below hb)]
  exact h.mono (Room.raise hk)

/-- A child was searched to its end, and then the others. -/
theorem Agrees.next {past : Prop} (hk : Within lo hi k)
    (hc : Agrees past (.ok (true, t')) (sweep min max visit items t))
    (h : Agrees (Room max (some k) hi) r (sweep min max visit more t')) :
    Agrees (Room max lo hi) r (sweep min max visit (items ++ more) t) := by
  rcases hc with hc | ⟨_, hc, -⟩
  · rw [sweep_append_of_true hc.symm]
    exact h.mono (Room.raise hk)
  · cases hc

/-- The search of a child stopped: at an item refused, or at a key past the
range, which is below every item of the other children. -/
theorem Agrees.stop (hk : Within lo hi k) (hr : Chain Leaf Inner l (some k) hi rest more)
    (hc : Agrees (Room max (some k) (bound rest hi)) (.ok (false, t'))
      (sweep min max visit items t)) :
    Agrees (Room max lo hi) (.ok (false, t')) (sweep min max visit (items ++ more) t) := by
  rcases hc with hc | ⟨_, he, hc, k', hw, hm⟩
  · exact .inl (sweep_append_of_false hc.symm).symm
  · cases he
    rw [sweep_append_of_true hc]
    refine .stopped (fun y hy => ?_) ⟨k', hk.raise (hr.within_bound hw), hm⟩
    cases hr with
    | nil => cases hy
    | cons h₁ h₂ h₃ =>
      have := ((Chain.cons h₁ h₂ h₃).from_first.within y hy).1 _ rfl
      exact hm.trans ((hw.2 _ rfl).trans_le this)

/-- The search of a child failed. -/
theorem Agrees.fail {past past' : Prop} {e : ε}
    (hc : Agrees past (.error e) (sweep min max visit items t)) :
    Agrees past' (.error e) (sweep min max visit (items ++ more) t) := by
  rcases hc with hc | ⟨_, hc, -⟩
  · exact .inl (sweep_append_of_error hc.symm).symm
  · cases hc

end children

end SearchTree
