import BtrfsPeek.Fs.Walk
import BtrfsPeek.Fs.Image
import BtrfsPeek.Lib.SearchTree

/-!
# Walks of search trees

Where the blocks under a root form a search tree of the items (`IsTree`), a walk
hands its visitor the items of the range, in order, until it stops. The proof
goes over the tree: a leaf is swept (`visitItems_eq_sweep`), and the children of
a node are swept in turn (`visitChildren_agrees`), those that are skipped and
those past the end included, since they hold nothing in the range.
-/

namespace BtrfsPeek

open Effect SearchTree

variable {β τ : Type}

namespace Node

/-- The pointers of a node from the `i`-th on. -/
def PtrsFrom (n : Node) (i : Nat) (ptrs : List (Key × Nat)) : Prop :=
  n.nritems = i + ptrs.length ∧ ∀ j (h : j < ptrs.length), n.ptr (i + j) = .ok ptrs[j]

theorem Ptrs.from_zero {n : Node} {ptrs : List (Key × Nat)} (h : n.Ptrs ptrs) :
    n.PtrsFrom 0 ptrs :=
  ⟨by rw [h.1, Nat.zero_add], fun j hj => by rw [Nat.zero_add]; exact h.2 j hj⟩

namespace PtrsFrom

variable {n : Node} {i : Nat} {x : Key × Nat} {rest : List (Key × Nat)}

theorem head (h : n.PtrsFrom i (x :: rest)) : n.ptr i = .ok x := h.2 0 (Nat.succ_pos _)

theorem tail (h : n.PtrsFrom i (x :: rest)) : n.PtrsFrom (i + 1) rest := by
  refine ⟨?_, fun j hj => ?_⟩
  · rw [h.1, List.length_cons]; omega
  · have := h.2 (j + 1) (Nat.succ_lt_succ hj)
    rwa [Nat.add_assoc, Nat.add_comm 1 j]

/-- The child before `rest` is skipped where its right sibling's first key is
not above the range. -/
theorem pruned_eq (h : n.PtrsFrom i rest) (min : Key) :
    n.pruned min i = .ok (decide (∃ y ∈ rest.head?, y.1 ≤ min)) := by
  unfold pruned
  cases rest with
  | nil =>
    rw [if_neg (by rw [h.1, List.length_nil]; omega)]
    simp
  | cons y rest =>
    rw [if_pos (by rw [h.1, List.length_cons]; omega), h.head]
    simp [bind, Except.bind, pure, Except.pure]

end PtrsFrom

/-- A leaf is visited as its items are swept. -/
theorem visitItems_eq_sweep {n : Node} (min max : Key) (visit : Visit τ) :
    ∀ {i : Nat} {items : List (Key × Bytes)} (t : τ),
      (∀ j (h : j < items.length), n.item (i + j) = .ok items[j]) →
      n.visitItems min max visit items.length i t = sweep min max visit items t
  | _, [], _, _ => rfl
  | i, (key, data) :: items, t, h => by
    have htail : ∀ j (h : j < items.length), n.item (i + 1 + j) = .ok items[j] := fun j hj => by
      have := h (j + 1) (Nat.succ_lt_succ hj)
      rwa [show i + 1 + j = i + (j + 1) by omega]
    have hhead : n.item i = .ok (key, data) := h 0 (Nat.succ_pos _)
    rw [List.length_cons, visitItems, hhead, sweep]
    simp only [bind, Except.bind]
    split_ifs with h₁ h₂
    · exact visitItems_eq_sweep min max visit t htail
    · rfl
    · cases visit key data t with
      | error e => rfl
      | ok r =>
        obtain ⟨more, t'⟩ := r
        cases more with
        | true => exact visitItems_eq_sweep min max visit t' htail
        | false => rfl

end Node

/-! ## The tree under a root -/

/-- The block at `p` is a leaf with these items. -/
def LeafAt (blocks : Nat → Option Node) (p : Nat) (items : List (Key × Bytes)) : Prop :=
  ∃ n, blocks p = some n ∧ n.level = 0 ∧ n.Items items

/-- The block at `p` is a node above level `l` with these pointers. -/
def InnerAt (blocks : Nat → Option Node) (l p : Nat) (ptrs : List (Key × Nat)) : Prop :=
  ∃ n, blocks p = some n ∧ n.level = l + 1 ∧ n.Ptrs ptrs

/-- The blocks under `root`, which is at level `l`, form a search tree of
`items`. -/
abbrev IsTree (blocks : Nat → Option Node) (l root : Nat) (items : List (Key × Bytes)) : Prop :=
  Holds (LeafAt blocks) (InnerAt blocks) l none none root items

/-- In every state satisfying `I` the addresses read as `blocks` says. -/
def Fs.Reads (fs : Fs β) (I : FsState β → Prop) (blocks : Nat → Option Node) : Prop :=
  ∀ p n, blocks p = some n → Yields I (fs.readNode p) (.ok n)

section walks

variable {fs : Fs β} {I : FsState β → Prop} {blocks : Nat → Option Node} {min max : Key}
  {visit : Visit τ}

/-- The search `x` of a range of keys agrees with the sweep of what it holds. -/
def Searches (I : FsState β → Prop) (min max : Key) (visit : Visit τ) (lo hi : Option Key)
    (x : τ → FsM β (Bool × τ)) (items : List (Key × Bytes)) : Prop :=
  ∀ t, ∃ r, Yields I (x t) r ∧ Agrees (Room max lo hi) r (sweep min max visit items t)

theorem Fs.walkNode_run (hR : fs.Reads I blocks) {p left : Nat} {n : Node}
    (hn : blocks p = some n) {expect : Option Nat} (he : ∀ e ∈ expect, e = n.level) (t : τ)
    {r : Except Error (Bool × τ)}
    (h : Yields I (if n.level = 0 then lift (n.visitItems min max visit n.nritems 0 t)
      else n.visitChildren min max
        (fun child t => fs.walkNode min max visit left child (some (n.level - 1)) t)
        n.nritems 0 t) r) :
    Yields I (fs.walkNode min max visit (left + 1) p expect t) r := by
  refine (hR p n hn).bind ?_
  have hc : Fs.checkLevel p n expect = .ok () := by
    cases expect with
    | none => rfl
    | some e => exact bailIf_ok_iff.mpr fun hne => hne (he e rfl).symm
  rw [hc]
  exact (Yields.lift _).bind h

mutual

/-- A walk of a tree agrees with the sweep of its items. -/
theorem Fs.walkNode_agrees (hR : fs.Reads I blocks) {l : Nat} {lo hi : Option Key} {p : Nat}
    {items : List (Key × Bytes)} : Holds (LeafAt blocks) (InnerAt blocks) l lo hi p items →
    ∀ {left : Nat} {expect : Option Nat}, l < left → (∀ e ∈ expect, e = l) →
      Searches I min max visit lo hi (fs.walkNode min max visit left p expect) items
  | .leaf hl _ _, left + 1, expect, _, he => by
    obtain ⟨n, hn, hlev, hitems⟩ := hl
    intro t
    refine ⟨_, fs.walkNode_run hR hn (hlev ▸ he) t ?_, .inl rfl⟩
    rw [if_pos hlev, hitems.1, Node.visitItems_eq_sweep min max visit t
      fun j hj => by rw [Nat.zero_add]; exact hitems.2 j hj]
    exact Yields.lift _
  | .inner hp _ hc, left + 1, expect, hlt, he => by
    obtain ⟨n, hn, hlev, hptrs⟩ := hp
    intro t
    obtain ⟨r, hr, ha⟩ := Node.visitChildren_agrees hR hc
      (Nat.lt_of_succ_lt_succ hlt) hptrs.from_zero t
    refine ⟨r, fs.walkNode_run hR hn (hlev ▸ he) t ?_, ha⟩
    rw [if_neg (by omega), hlev, hptrs.1]
    exact hr

/-- A walk of the children of a node agrees with the sweep of their items. -/
theorem Node.visitChildren_agrees (hR : fs.Reads I blocks) {l : Nat} {lo hi : Option Key}
    {ptrs : List (Key × Nat)} {items : List (Key × Bytes)} :
    Chain (LeafAt blocks) (InnerAt blocks) l lo hi ptrs items →
    ∀ {left : Nat} {n : Node} {i : Nat}, l < left → n.PtrsFrom i ptrs →
      Searches I min max visit lo hi
        (n.visitChildren min max
          (fun child t => fs.walkNode min max visit left child (some l) t) ptrs.length i) items
  | .nil, _, _, _, _, _ => fun t => ⟨_, Yields.pure _, .inl rfl⟩
  | .cons hk hc hr, left, n, i, hlt, hp => fun t => by
    rename_i k p rest items more
    have hall := (Chain.cons hk hc hr).from_first.within
    rw [List.length_cons, Node.visitChildren, hp.head, hp.tail.pruned_eq]
    simp only [lift_ok_bind]
    by_cases hmax : max < k
    · -- Everything from here on is past the range.
      refine ⟨.ok (false, t), ?_, .stopped (fun x hx => ?_) ⟨k, hk, hmax⟩⟩
      · rw [if_pos hmax]; exact Yields.pure _
      · exact lt_of_lt_of_le hmax ((hall x hx).1 k rfl)
    rw [if_neg hmax]
    have hrest := Node.visitChildren_agrees hR hr hlt hp.tail
    by_cases hskip : ∃ y ∈ rest.head?, y.1 ≤ min
    · obtain ⟨r, hy, ha⟩ := hrest t
      refine ⟨r, ?_, .skip hk (fun x hx => ?_) ha⟩
      · rw [decide_eq_true hskip]; exact hy
      · obtain ⟨y, hy, hle⟩ := hskip
        cases rest with
        | nil => cases hy
        | cons z rest => cases hy; exact lt_of_lt_of_le ((hc.within x hx).2 _ rfl) hle
    rw [decide_eq_false hskip]
    obtain ⟨r, hy, ha⟩ := Fs.walkNode_agrees hR hc hlt
      (show ∀ e ∈ some l, e = l by rintro _ ⟨⟩; rfl) t
    cases r with
    | error e => exact ⟨_, hy.bind_error, ha.fail⟩
    | ok r =>
      obtain ⟨more, t'⟩ := r
      cases more with
      | true =>
        obtain ⟨r, hy', ha'⟩ := hrest t'
        exact ⟨r, hy.bind hy', ha.next hk ha'⟩
      | false => exact ⟨_, hy.bind (Yields.pure _), ha.stop hk hr⟩

end

variable {l root : Nat} {items : List (Key × Bytes)}

/-- A walk hands its visitor the items of the range, until it stops or fails. -/
theorem Fs.walk_yields (hR : fs.Reads I blocks) (hT : IsTree blocks l root items) (hl : l ≤ 8)
    (min max : Key) (visit : Visit τ) (t : τ) :
    ∃ r, Yields I (fs.walk root min max visit t) r ∧
      r.map Prod.snd = (feed visit (inRange min max items) t).map Prod.snd := by
  obtain ⟨r, hr, ha⟩ := Fs.walkNode_agrees hR hT (Nat.lt_succ_of_le hl)
    (show ∀ e ∈ (none : Option Nat), e = l by rintro _ ⟨⟩) t
  exact ⟨r, hr, ha.snd.trans (sweep_eq_feed hT.ascending t)⟩

/-- What `Fs::get` finds is what is there. -/
theorem Fs.get_yields (hR : fs.Reads I blocks) (hT : IsTree blocks l root items) (hl : l ≤ 8)
    (key : Key) : ∃ out, Yields I (fs.get root key) (.ok out) ∧
      ∀ d, out = some d ↔ (key, d) ∈ items := by
  obtain ⟨r, hr, hs⟩ := fs.walk_yields hR hT hl key key (fun _ d _ => .ok (false, some d))
    (none : Option Bytes)
  obtain ⟨more, hr'⟩ : ∃ more, r = .ok (more, (inRange key key items).head?.map Prod.snd) := by
    cases r with
    | error e => cases h : inRange key key items <;> rw [h] at hs <;> cases hs
    | ok r =>
      refine ⟨r.1, ?_⟩
      cases h : inRange key key items <;> rw [h] at hs <;>
        exact congrArg Except.ok (Prod.ext rfl (Except.ok.inj hs))
  rw [hr'] at hr
  exact ⟨_, hr.bind (Yields.pure _), fun d => head?_inRange_self hT.ascending⟩

/-- Range walks of a search tree: a visitor that does not stop is handed
exactly the items of the range, in ascending order; one that stops, these up to
and including the first it refuses; and `Fs::get` finds the item with a key
exactly when there is one. -/
theorem Fs.walk_hands_range (hR : fs.Reads I blocks) (hT : IsTree blocks l root items) (hl : l ≤ 8)
    (min max : Key) :
    Ascending (inRange min max items) ∧
    (∀ (go : Key → Bytes → τ → Bool × τ) (t : τ), (∀ k d t, (go k d t).1 = true) →
      ∃ more t', Yields I (fs.walk root min max (recording go) ([], t))
        (.ok (more, (inRange min max items, t')))) ∧
    (∀ (go : Key → Bytes → τ → Bool × τ) (t : τ),
      ∃ more t', Yields I (fs.walk root min max (recording go) ([], t))
        (.ok (more, (upToRefused go (inRange min max items) t, t')))) ∧
    ∀ key, ∃ out, Yields I (fs.get root key) (.ok out) ∧ ∀ d, out = some d ↔ (key, d) ∈ items := by
  have hstop : ∀ (go : Key → Bytes → τ → Bool × τ) (t : τ),
      ∃ more t', Yields I (fs.walk root min max (recording go) ([], t))
        (.ok (more, (upToRefused go (inRange min max items) t, t'))) := fun go t => by
    obtain ⟨r, hr, hs⟩ := fs.walk_yields hR hT hl min max (recording go) ([], t)
    obtain ⟨more, t', hf⟩ := feed_recording (ε := Error) go (inRange min max items) [] t
    rw [hf] at hs
    cases r with
    | error e => cases hs
    | ok r =>
      refine ⟨r.1, t', ?_⟩
      rwa [show r = (r.1, (upToRefused go (inRange min max items) t, t')) from
        Prod.ext rfl (Except.ok.inj hs)] at hr
  refine ⟨hT.ascending.sublist List.filter_sublist, fun go t hgo => ?_, hstop,
    fs.get_yields hR hT hl⟩
  obtain ⟨more, t', h⟩ := hstop go t
  rw [upToRefused_of_never hgo] at h
  exact ⟨more, t', h⟩

end walks

/-- Cached blocks read as what is cached. -/
theorem Fs.reads_of_nodes (fs : Fs β) {I : FsState β → Prop} {blocks : Nat → Option Node}
    (h : ∀ s, I s → ∀ p n, blocks p = some n → s.nodes.lookup p = some n) : fs.Reads I blocks := by
  intro p n hp s hs
  refine ⟨s, hs, ?_⟩
  rw [Fs.readNode, bind_of_ok (get_run s), h s hs p n hp]
  rfl

theorem Fs.reads_of_cached (fs : Fs β) (blocks : Nat → Option Node) :
    fs.Reads (fun s => ∀ p n, blocks p = some n → s.nodes.lookup p = some n) blocks :=
  fs.reads_of_nodes fun _ h => h

/-- A root over two leaves of two items each. -/
def twoLeaves : Nat → Option Node
  | 0 => some ⟨Image.inner 0 1 [(⟨1, 0, 0⟩, 1), (⟨3, 0, 0⟩, 2)]⟩
  | 1 => some ⟨Image.leaf 1 [(⟨1, 0, 0⟩, [7]), (⟨2, 0, 0⟩, [8])]⟩
  | 2 => some ⟨Image.leaf 2 [(⟨3, 0, 0⟩, [9]), (⟨4, 0, 0⟩, [])]⟩
  | _ => none

theorem isTree_twoLeaves : IsTree twoLeaves 1 0
    [(⟨1, 0, 0⟩, [7]), (⟨2, 0, 0⟩, [8]), (⟨3, 0, 0⟩, [9]), (⟨4, 0, 0⟩, [])] := by
  have leafAt {p : Nat} {items : List (Key × Bytes)} (h : twoLeaves p = some ⟨Image.leaf p items⟩)
      (hl : (Image.leaf p items).length < 2 ^ 32) (hk : ∀ x ∈ items, x.1.Fits) :
      LeafAt twoLeaves p items :=
    ⟨_, h, Image.items_leaf (.whole _) hl hk⟩
  have root := Image.ptrs_inner (.whole (Image.inner 0 1 [(⟨1, 0, 0⟩, 1), (⟨3, 0, 0⟩, 2)]))
    (by decide) (by decide) (by decide)
  have h₁ : LeafAt twoLeaves 1 [(⟨1, 0, 0⟩, [7]), (⟨2, 0, 0⟩, [8])] :=
    leafAt rfl (by decide +kernel) (by decide)
  have h₂ : LeafAt twoLeaves 2 [(⟨3, 0, 0⟩, [9]), (⟨4, 0, 0⟩, [])] :=
    leafAt rfl (by decide +kernel) (by decide)
  show IsTree twoLeaves 1 0 ([(⟨1, 0, 0⟩, [7]), (⟨2, 0, 0⟩, [8])] ++
    ([(⟨3, 0, 0⟩, [9]), (⟨4, 0, 0⟩, [])] ++ []))
  exact .inner ⟨_, rfl, root⟩ (by decide) (.cons (by decide) (.leaf h₁ (by decide) (by decide))
    (.cons (by decide) (.leaf h₂ (by decide) (by decide)) .nil))

/-- The walk from the second to the third of their items. -/
theorem Fs.walk_hands_range_twoLeaves :
    ∃ more t', Yields (fun s => ∀ p n, twoLeaves p = some n → s.nodes.lookup p = some n)
      ((Image.fs []).walk 0 ⟨2, 0, 0⟩ ⟨3, 0, 0⟩ (recording fun _ _ (_ : Unit) => (true, ())) ([], ()))
      (.ok (more, ([(⟨2, 0, 0⟩, [8]), (⟨3, 0, 0⟩, [9])], t'))) :=
  (Fs.walk_hands_range ((Image.fs []).reads_of_cached twoLeaves) isTree_twoLeaves (by decide)
    ⟨2, 0, 0⟩ ⟨3, 0, 0⟩).2.1 _ () fun _ _ _ => rfl

end BtrfsPeek
