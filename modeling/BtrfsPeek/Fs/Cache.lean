import BtrfsPeek.Fs.Alike
import BtrfsPeek.Fs.Image

/-!
# The caches

What the caches hold, beside what the filesystem reads when it has just been
opened (`s₀`). `Coherent` says that it is the same:

* `NodesOk`: each cached block is the one a fresh filesystem reads there;
* `RootsOk`: each cached root is the one a fresh filesystem finds;
* `LastOk`: the cached extent is what a fresh filesystem decompresses, whoever
  names it.

Every operation keeps it and ends as it would on the fresh filesystem
(`Op.run_alike`), so a run of any operations does (`caches_invisible`). That
takes two things of the image. The extent cache is keyed by the address alone,
so two items that name one address must describe one extent (`NamesAlike`). And
the blocks read on the way to the full chunk map stay cached, so they must read
the same under it, or never be dropped (`Rereads`, `Few`).
-/

namespace BtrfsPeek

open Effect

variable {β : Type}

/-! ## Opening -/

/-- A path opens the same way every time, and a device is of fixed content. -/
structure SteadyOpener (opener : Opener β) : Prop where
  same : ∀ path s t, (opener path s).1 = (opener path t).1
  holds : ∀ path s B, (opener path s).1 = .ok B → ∃ c, B.Holds c

/-- How an extent item describes a compressed extent. -/
structure Description where
  diskNumBytes : Nat
  compression : Nat
  ramBytes : Nat
  deriving DecidableEq, Repr

/-- The item describes the compressed extent at `addr`. -/
def Extent.Describes (e : Extent) (addr : Nat) (d : Description) : Prop :=
  ∃ off, e.kind = .regular addr d.diskNumBytes off ∧ addr ≠ 0 ∧ e.compression ≠ 0 ∧
    d.compression = e.compression ∧ d.ramBytes = e.ramBytes

/-- States with the same in every cache, for which `P` holds. -/
structure Same (P : FsState β → Prop) (s t : FsState β) : Prop where
  nodes : s.nodes = t.nodes
  roots : s.roots = t.roots
  last : s.lastExtent = t.lastExtent
  holds : P s

/-- Nothing is cached but blocks, each under its own address. -/
structure Fresh (s : FsState β) : Prop where
  nodup : (s.nodes.map Prod.fst).Nodup
  roots : s.roots = []
  last : s.lastExtent = none

/-- What no relation of the caches tells apart changes the devices only. -/
theorem run_of_alike {α : Type} {x : FsM β α} (h : ∀ R, DevFree R → Alike R x) (s s₀ : FsState β) :
    ∃ dev, x s = done (Result.value (x s₀)) { s with dev := dev } := by
  have hv := (h (fun _ _ => True) (fun _ _ _ _ _ => trivial) s s₀ trivial).1
  have hs := (h (fun u _ => u = { s with dev := u.dev }) (fun u _ _ _ hu => by rw [hu]) s s rfl).2
  refine ⟨(Result.state (x s)).dev, ?_⟩
  rw [← hv, ← hs, done_value_state]

theorem inContext_alike {α : Type} {R : FsState β → FsState β → Prop} {x : FsM β α} (text : String)
    (hx : Alike R x) : Alike R (inContext text x) := by
  intro s t h
  obtain ⟨hv, hr⟩ := hx s t h
  simp only [inContext]
  cases hs : x s <;> cases ht : x t <;> rw [hs, ht] at hv hr <;> cases hv <;> exact ⟨rfl, hr⟩

namespace Fs

variable {fs : Fs β}

theorem lookup_cacheNode {p q : Nat} {n : Node} {s : FsState β} (h : q ≠ p) {m : Node}
    (hm : (cacheNode p n s).nodes.lookup q = some m) : s.nodes.lookup q = some m := by
  simp only [cacheNode, List.lookup_cons, beq_eq_false_iff_ne.mpr h] at hm
  split_ifs at hm
  · cases hm
  · exact hm

@[simp] theorem lookup_cacheNode_self (p : Nat) (n : Node) (s : FsState β) :
    (cacheNode p n s).nodes.lookup p = some n := by
  simp [cacheNode]

theorem lookup_cacheNode_of_lt {p q : Nat} {n : Node} {s : FsState β} (h : q ≠ p)
    (hs : s.nodes.length < MAX_NODES) : (cacheNode p n s).nodes.lookup q = s.nodes.lookup q := by
  simp only [cacheNode, List.lookup_cons, beq_eq_false_iff_ne.mpr h]
  rw [if_neg (by omega)]

theorem not_mem_of_lookup {A B : Type} [BEq A] [LawfulBEq A] {a : A} {l : List (A × B)}
    (h : l.lookup a = none) : a ∉ l.map Prod.fst := by
  intro ha
  obtain ⟨x, hx, rfl⟩ := List.mem_map.mp ha
  have := List.lookup_eq_none_iff.mp h x hx
  simp at this

theorem nodup_cacheNode {p : Nat} {n : Node} {s : FsState β} (h : (s.nodes.map Prod.fst).Nodup)
    (hp : s.nodes.lookup p = none) : ((cacheNode p n s).nodes.map Prod.fst).Nodup := by
  simp only [cacheNode]
  split_ifs
  · simp
  · exact List.nodup_cons.mpr ⟨not_mem_of_lookup hp, h⟩

section runs

variable (hfs : fs.Honest)

include hfs

/-- Reading a block: it is cached, or is fetched and then cached. -/
theorem readNode_run (p : Nat) (s s₀ : FsState β) :
    (∃ n, s.nodes.lookup p = some n ∧ fs.readNode p s = .ok n s) ∨
    s.nodes.lookup p = none ∧ ∃ dev, fs.readNode p s =
      match Result.value (fs.fetchNode p s₀) with
      | .ok n => .ok n (cacheNode p n { s with dev := dev })
      | .error e => .error e { s with dev := dev } := by
  unfold readNode
  rw [bind_of_ok (get_run s)]
  cases h : s.nodes.lookup p with
  | some n => exact .inl ⟨n, rfl, rfl⟩
  | none =>
    obtain ⟨dev, hd⟩ := run_of_alike (fun R hR => fetchNode_alike hR hfs p) s s₀
    refine .inr ⟨rfl, dev, ?_⟩
    dsimp only
    rw [bind_run, hd]
    cases Result.value (fs.fetchNode p s₀) <;> rfl

theorem readNode_same {P : FsState β → Prop} (hdev : ∀ s dev, P s → P { s with dev := dev })
    (hcache : ∀ s p n, P s → s.nodes.lookup p = none → P (cacheNode p n s)) (p : Nat) :
    Alike (Same P) (fs.readNode p) := by
  intro s t h
  rcases readNode_run hfs p s s with ⟨n, hn, hs⟩ | ⟨hn, dev, hs⟩
  · rcases readNode_run hfs p t s with ⟨m, hm, ht⟩ | ⟨hm, -⟩
    · rw [h.nodes, hm] at hn
      cases hn
      rw [hs, ht]; exact ⟨rfl, h⟩
    · rw [h.nodes, hm] at hn; cases hn
  · rcases readNode_run hfs p t s with ⟨m, hm, -⟩ | ⟨hm, dev', ht⟩
    · rw [h.nodes, hm] at hn; cases hn
    · rw [hs, ht]
      cases Result.value (fs.fetchNode p s) with
      | error e => exact ⟨rfl, h.nodes, h.roots, h.last, hdev s dev h.holds⟩
      | ok n =>
        refine ⟨rfl, ?_, h.roots, h.last, hcache _ p n (hdev s dev h.holds) hn⟩
        simp only [Result.state_ok, cacheNode, h.nodes]

omit hfs in
theorem tree_same {P : FsState β → Prop} (hnode : ∀ p, Alike (Same P) (fs.readNode p))
    (hroots : ∀ s roots, P s → P { s with roots := roots }) (id : Nat) :
    Alike (Same P) (fs.tree id) := by
  intro s t h
  unfold tree
  rw [bind_of_ok (get_run s), bind_of_ok (get_run t), h.roots]
  cases t.roots.lookup id with
  | some r => exact ⟨rfl, h⟩
  | none =>
    refine ((fetchTree_alike hnode id).bind fun r => (Alike.modify fun s t h => ?_).bind fun _ =>
      .pure r) s t h
    exact ⟨h.nodes, by rw [h.roots], h.last, hroots _ _ h.holds⟩

/-- Opening keeps a state fresh. -/
theorem readNode_fresh (p : Nat) : Alike (Same Fresh) (fs.readNode p) :=
  readNode_same hfs (fun _ _ h => ⟨h.nodup, h.roots, h.last⟩)
    (fun _ _ _ h hp => ⟨nodup_cacheNode h.nodup hp, h.roots, h.last⟩) p

end runs

section opening

variable {p : Platform} {X : Crates} {opener : Opener β} (hop : SteadyOpener opener)

theorem devFree_fresh : DevFree (Same (Fresh (β := β))) := fun _ _ _ _ h =>
  ⟨h.nodes, h.roots, h.last, h.holds.nodup, h.holds.roots, h.holds.last⟩

theorem openDevice_holds (hop : SteadyOpener opener) {path : String} {s s' : FsState β} {d : Device β}
    (h : openDevice p opener path s = .ok d s') : ∃ c, d.backing.Holds c := by
  unfold openDevice Device.open at h
  have hh := hop.holds path s.dev
  split at h
  · rename_i d' dev hd
    cases h
    split at hd
    · rename_i B dev' ho
      cases hd
      exact hh B (by rw [ho])
    · cases hd
  · cases h

include hop

theorem openDevice_alike (path : String) : Alike (Same Fresh) (openDevice p opener path) := by
  intro s t h
  have hsame := hop.same path s.dev t.dev
  unfold openDevice Device.open
  cases hs : opener path s.dev with
  | mk r dev =>
    cases ht : opener path t.dev with
    | mk r' dev' =>
      rw [hs, ht] at hsame
      dsimp only at hsame
      subst hsame
      cases r with
      | ok B => exact ⟨rfl, devFree_fresh _ _ _ _ h⟩
      | error e => exact ⟨rfl, devFree_fresh _ _ _ _ h⟩

theorem openDevices_alike : ∀ (paths : List String) (o : Opened β),
    Alike (Same Fresh) (openDevices p X opener paths o)
  | [], o => .pure o
  | path :: paths, o => by
    refine (openDevice_alike hop path).bind_comes fun d hd => ?_
    obtain ⟨s, t, -, hv⟩ := hd
    obtain ⟨c, hc⟩ : ∃ c, d.backing.Holds c := by
      cases h : openDevice p opener path t <;> rw [h] at hv <;> cases hv
      exact openDevice_holds hop h
    refine (inContext_alike _ (onDev_read_alike devFree_fresh hc _ (by decide))).bind fun raw => ?_
    refine (Alike.lift _).bind fun sb => (Alike.lift _).bind fun _ => ?_
    exact openDevices_alike paths _

theorem openDevices_honest : ∀ {paths : List String} {o o' : Opened β} {s s' : FsState β},
    (∀ x ∈ o.devs, ∃ c, x.2.backing.Holds c) → openDevices p X opener paths o s = .ok o' s' →
    ∀ x ∈ o'.devs, ∃ c, x.2.backing.Holds c
  | [], o, _, _, _, ho, h => by cases h; exact ho
  | path :: paths, o, o', s, s', ho, h => by
    obtain ⟨d, s₁, hd, h⟩ := bind_ok_iff.mp h
    obtain ⟨raw, s₂, -, h⟩ := bind_ok_iff.mp h
    obtain ⟨sb, s₃, -, h⟩ := bind_ok_iff.mp h
    obtain ⟨_, s₄, -, h⟩ := bind_ok_iff.mp h
    refine openDevices_honest (fun x hx => ?_) h
    rcases List.mem_cons.mp hx with rfl | hx
    · exact openDevice_holds hop hd
    · exact ho x hx

/-- Opening the same devices again gives the same filesystem, with the same
blocks in its cache. -/
theorem open_alike (paths : List String) : Alike (Same Fresh) (Fs.open p X opener paths) := by
  refine (Alike.lift _).bind fun _ => (openDevices_alike hop paths _).bind_comes fun o ho => ?_
  obtain ⟨s, t, -, hv⟩ := ho
  cases h : openDevices p X opener paths ⟨[], none⟩ t <;> rw [h] at hv <;> cases hv
  have hd := openDevices_honest hop (by rintro x ⟨⟩) h
  cases o.best with
  | none => exact .throw _
  | some sb =>
    refine (Alike.lift _).bind fun _ => (Alike.lift _).bind fun chunks => ?_
    refine (inContext_alike _ (findChunks_alike (readNode_fresh ?_))).bind fun _ => .pure _
    exact hd

theorem honest_of_open {paths : List String} {s s₀ : FsState β}
    (h : Fs.open p X opener paths s = .ok fs s₀) : fs.Honest := by
  obtain ⟨_, s₁, -, h⟩ := bind_ok_iff.mp h
  obtain ⟨o, s₂, ho, h⟩ := bind_ok_iff.mp h
  have hd := openDevices_honest hop (by rintro x ⟨⟩) ho
  generalize o.best = best at h
  cases best with
  | none => cases h
  | some sb =>
    obtain ⟨_, s₃, -, h⟩ := bind_ok_iff.mp h
    obtain ⟨chunks, s₄, -, h⟩ := bind_ok_iff.mp h
    obtain ⟨found, s₅, -, h⟩ := bind_ok_iff.mp h
    cases h
    exact hd

end opening

/-! ## What the caches hold -/

section coherence

variable (fs : Fs β) (s₀ : FsState β)

/-- The blocks cached by `Fs::open` read the same under the full chunk map. -/
def Rereads : Prop :=
  ∀ p n, s₀.nodes.lookup p = some n → Result.value (fs.fetchNode p s₀) = .ok n

/-- No more blocks can be read than the cache holds. -/
def Few : Prop :=
  ∃ l : List Nat, l.length ≤ MAX_NODES ∧ ∀ p n, Result.value (fs.readNode p s₀) = .ok n → p ∈ l

/-- A cached block is what a fresh filesystem reads, and what `Fs::open` cached
is still there or reads the same. -/
structure NodesOk (s : FsState β) : Prop where
  right : ∀ p n, s.nodes.lookup p = some n → Result.value (fs.readNode p s₀) = .ok n
  kept : fs.Rereads s₀ ∨ ∀ p n, s₀.nodes.lookup p = some n → s.nodes.lookup p = some n
  nodup : (s.nodes.map Prod.fst).Nodup

/-- A cached root is what a fresh filesystem finds. -/
def RootsOk (s : FsState β) : Prop :=
  ∀ id r, s.roots.lookup id = some r → Result.value (fs.fetchTree id s₀) = .ok r

/-- One of the extent items of the files in `L` describes the extent at
`addr`. -/
def Describes (L : Loc → Prop) (addr : Nat) (d : Description) : Prop :=
  ∃ loc, L loc ∧ ∃ exts, Result.value (fs.extents loc s₀) = .ok exts ∧
    ∃ e ∈ exts, e.Describes addr d

/-- Extent items of the files in `L` that name one address describe one
extent. -/
def NamesAlike (L : Loc → Prop) : Prop :=
  ∀ addr d d', fs.Describes s₀ L addr d → fs.Describes s₀ L addr d' → d = d'

/-- What a description decompresses to on a fresh filesystem. -/
def decompressed (addr : Nat) (d : Description) : Except Error Bytes :=
  Result.value (fs.decompressExtent addr d.diskNumBytes d.compression d.ramBytes s₀)

/-- The cached extent is what a fresh filesystem decompresses, by any description
of it among `D`. -/
def LastOk (D : Nat → Description → Prop) (s : FsState β) : Prop :=
  ∀ addr data, s.lastExtent = some (addr, data) → ∀ d, D addr d →
    fs.decompressed s₀ addr d = .ok data

structure Coherent (L : Loc → Prop) (s : FsState β) : Prop where
  nodes : fs.NodesOk s₀ s
  roots : fs.RootsOk s₀ s
  last : fs.LastOk s₀ (fs.Describes s₀ L) s

end coherence

section keeping

variable {s₀ s : FsState β} {L : Loc → Prop} (hfs : fs.Honest)
  (hboot : fs.Rereads s₀ ∨ fs.Few s₀) (hnames : fs.NamesAlike s₀ L)

include hfs in
theorem NodesOk.refl (h : (s₀.nodes.map Prod.fst).Nodup) : fs.NodesOk s₀ s₀ := by
  refine ⟨fun p n hn => ?_, .inr fun _ _ h => h, h⟩
  rcases readNode_run hfs p s₀ s₀ with ⟨m, hm, hr⟩ | ⟨hm, -⟩
  · rw [hm] at hn; cases hn; rw [hr]; rfl
  · rw [hm] at hn; cases hn

theorem Coherent.of_fresh (hfs : fs.Honest) {t : FsState β} (h : Same Fresh t s₀) :
    fs.Coherent s₀ L t := by
  have hn : fs.NodesOk s₀ s₀ := .refl hfs (h.nodes ▸ h.holds.nodup)
  refine ⟨⟨fun p n hp => hn.right p n (h.nodes ▸ hp), .inr fun p n hp => h.nodes ▸ hp,
    h.holds.nodup⟩, fun id r hr => ?_, fun addr data hd => ?_⟩
  · rw [h.holds.roots] at hr; cases hr
  · rw [h.holds.last] at hd; cases hd

include hfs in
/-- A block that is not cached reads as on the fresh filesystem. -/
theorem NodesOk.fetch_eq (h : fs.NodesOk s₀ s) {p : Nat} (hp : s.nodes.lookup p = none) :
    Result.value (fs.fetchNode p s₀) = Result.value (fs.readNode p s₀) := by
  rcases readNode_run hfs p s₀ s₀ with ⟨n, hn, hr⟩ | ⟨-, dev, hr⟩
  · rcases h.kept with hk | hk
    · rw [hk p n hn, hr]; rfl
    · rw [hk p n hn] at hp; cases hp
  · rw [hr]
    cases Result.value (fs.fetchNode p s₀) <;> rfl

include hboot in
/-- A block read right may be cached. -/
theorem NodesOk.cache (h : fs.NodesOk s₀ s) {p : Nat} {n : Node} (hp : s.nodes.lookup p = none)
    (hn : Result.value (fs.readNode p s₀) = .ok n) : fs.NodesOk s₀ (cacheNode p n s) := by
  refine ⟨fun q m hq => ?_, ?_, nodup_cacheNode h.nodup hp⟩
  · by_cases hqp : q = p
    · subst hqp
      rw [lookup_cacheNode_self] at hq
      cases hq; exact hn
    · exact h.right q m (lookup_cacheNode hqp hq)
  · rcases h.kept with hk | hk
    · exact .inl hk
    rcases hboot with hr | ⟨l, hl, hmem⟩
    · exact .inl hr
    -- The cache is not full: its blocks and this one are among the few there are.
    have hsub : p :: s.nodes.map Prod.fst ⊆ l := by
      intro q hq
      rcases List.mem_cons.mp hq with rfl | hq
      · exact hmem q n hn
      · cases hl : s.nodes.lookup q with
        | none => exact absurd hq (not_mem_of_lookup hl)
        | some m => exact hmem q m (h.right q m hl)
    have hlen := (List.subperm_of_subset (List.nodup_cons.mpr ⟨not_mem_of_lookup hp, h.nodup⟩)
      hsub).length_le
    rw [List.length_cons, List.length_map] at hlen
    refine .inr fun q m hq => ?_
    by_cases hqp : q = p
    · subst hqp; rw [hk q m hq] at hp; cases hp
    · rw [lookup_cacheNode_of_lt hqp (by omega)]; exact hk q m hq

include hfs hboot in
/-- Reading a block gives what the fresh filesystem gives, and touches neither of
the other caches. -/
theorem readNode_spec (h : fs.NodesOk s₀ s) (p : Nat) :
    Result.value (fs.readNode p s) = Result.value (fs.readNode p s₀) ∧
    fs.NodesOk s₀ (Result.state (fs.readNode p s)) ∧
    (Result.state (fs.readNode p s)).roots = s.roots ∧
    (Result.state (fs.readNode p s)).lastExtent = s.lastExtent := by
  rcases readNode_run hfs p s s₀ with ⟨n, hn, hr⟩ | ⟨hn, dev, hr⟩
  · rw [hr]
    exact ⟨(h.right p n hn).symm, h, rfl, rfl⟩
  · have hv := h.fetch_eq hfs hn
    have hd : fs.NodesOk s₀ { s with dev := dev } := ⟨h.right, h.kept, h.nodup⟩
    rw [hr, ← hv]
    cases hf : Result.value (fs.fetchNode p s₀) with
    | error e => exact ⟨rfl, hd, rfl, rfl⟩
    | ok n => exact ⟨rfl, hd.cache hboot hn (by rw [← hv, hf]), rfl, rfl⟩

/-- Two states whose cached blocks are right, each with the other caches it
had. -/
structure NodesRel (fs : Fs β) (s₀ s t u v : FsState β) : Prop where
  left : fs.NodesOk s₀ u
  right : fs.NodesOk s₀ v
  left_frame : u.roots = s.roots ∧ u.lastExtent = s.lastExtent
  right_frame : v.roots = t.roots ∧ v.lastExtent = t.lastExtent

include hfs hboot in
theorem readNode_alike (s t : FsState β) (p : Nat) :
    Alike (fs.NodesRel s₀ s t) (fs.readNode p) := by
  intro u v h
  obtain ⟨hu, hu₁, hu₂, hu₃⟩ := readNode_spec hfs hboot h.left p
  obtain ⟨hv, hv₁, hv₂, hv₃⟩ := readNode_spec hfs hboot h.right p
  exact ⟨hu.trans hv.symm, hu₁, hv₁, ⟨hu₂.trans h.left_frame.1, hu₃.trans h.left_frame.2⟩,
    ⟨hv₂.trans h.right_frame.1, hv₃.trans h.right_frame.2⟩⟩

/-- What reads blocks only does as on the fresh filesystem, and touches neither of
the other caches. -/
theorem spec_of_alike {α : Type} {x : FsM β α} (h : fs.NodesOk s₀ s) (h₀ : fs.NodesOk s₀ s₀)
    (hx : Alike (fs.NodesRel s₀ s s₀) x) :
    Result.value (x s) = Result.value (x s₀) ∧ fs.NodesOk s₀ (Result.state (x s)) ∧
    (Result.state (x s)).roots = s.roots ∧ (Result.state (x s)).lastExtent = s.lastExtent := by
  obtain ⟨hv, hr⟩ := hx s s₀ ⟨h, h₀, ⟨rfl, rfl⟩, ⟨rfl, rfl⟩⟩
  exact ⟨hv, hr.left, hr.left_frame⟩

variable (h₀ : fs.NodesOk s₀ s₀)

include hfs hboot h₀ in
/-- Finding a root gives what the fresh filesystem finds. -/
theorem tree_spec (h : fs.NodesOk s₀ s) (hr : fs.RootsOk s₀ s) (id : Nat) :
    Result.value (fs.tree id s) = Result.value (fs.fetchTree id s₀) ∧
    fs.NodesOk s₀ (Result.state (fs.tree id s)) ∧ fs.RootsOk s₀ (Result.state (fs.tree id s)) ∧
    (Result.state (fs.tree id s)).lastExtent = s.lastExtent := by
  unfold tree
  rw [bind_of_ok (get_run s)]
  cases hl : s.roots.lookup id with
  | some r => exact ⟨(hr id r hl).symm, h, hr, rfl⟩
  | none =>
    obtain ⟨hv, hn, hf, hx⟩ := spec_of_alike h h₀ (fetchTree_alike (readNode_alike hfs hboot s s₀) id)
    dsimp only
    rw [bind_run]
    cases hs : fs.fetchTree id s with
    | error e s' =>
      rw [hs] at hv hn hf hx
      exact ⟨hv, hn, fun id r hq => hr id r (hf ▸ hq), hx⟩
    | ok r s' =>
      rw [hs] at hv hn hf hx
      refine ⟨hv, ⟨hn.right, hn.kept, hn.nodup⟩, fun id' r' hq => ?_, hx⟩
      simp only [bind_run, modify_run, pure_run, Result.state_ok, List.lookup_cons] at hq
      split at hq
      · rename_i he
        cases hq
        rw [beq_iff_eq.mp he]; exact hv.symm
      · exact hr id' r' (hf ▸ hq)

/-- Two coherent states. -/
abbrev Both (fs : Fs β) (s₀ : FsState β) (L : Loc → Prop) (s t : FsState β) : Prop :=
  fs.Coherent s₀ L s ∧ fs.Coherent s₀ L t

theorem devFree_both : DevFree (fs.Both s₀ L) := fun _ _ _ _ h =>
  ⟨⟨⟨h.1.nodes.right, h.1.nodes.kept, h.1.nodes.nodup⟩, h.1.roots, h.1.last⟩,
   ⟨⟨h.2.nodes.right, h.2.nodes.kept, h.2.nodes.nodup⟩, h.2.roots, h.2.last⟩⟩

/-- What gives from each coherent state what the fresh filesystem gives is alike
on all of them. -/
theorem alike_both {α : Type} {x : FsM β α} {r : Except Error α}
    (h : ∀ s, fs.Coherent s₀ L s → Result.value (x s) = r ∧ fs.Coherent s₀ L (Result.state (x s))) :
    Alike (fs.Both s₀ L) x := fun s t hst =>
  ⟨(h s hst.1).1.trans (h t hst.2).1.symm, (h s hst.1).2, (h t hst.2).2⟩

include hfs hboot in
theorem readNode_both (p : Nat) : Alike (fs.Both s₀ L) (fs.readNode p) := by
  refine alike_both (r := Result.value (fs.readNode p s₀)) fun s hs => ?_
  obtain ⟨hv, hn, hf, hx⟩ := readNode_spec hfs hboot hs.nodes p
  exact ⟨hv, hn, fun id r hq => hs.roots id r (hf ▸ hq), fun addr data hd => hs.last addr data (hx ▸ hd)⟩

include hfs hboot h₀ in
theorem tree_both (id : Nat) : Alike (fs.Both s₀ L) (fs.tree id) := by
  refine alike_both (r := Result.value (fs.fetchTree id s₀)) fun s hs => ?_
  obtain ⟨hv, hn, hf, hx⟩ := tree_spec hfs hboot h₀ hs.nodes hs.roots id
  exact ⟨hv, hn, hf, fun addr data hd => hs.last addr data (hx ▸ hd)⟩

include hfs in
/-- An extent with one description among `D` decompresses as on the fresh
filesystem, cached or not, and nothing but its cache changes. -/
theorem compressedExtent_run {D : Nat → Description → Prop}
    (hD : ∀ addr d d', D addr d → D addr d' → d = d') {addr : Nat} {d : Description} (hd : D addr d)
    (hs : fs.LastOk s₀ D s) :
    ∃ dev last, fs.LastOk s₀ D { s with lastExtent := last } ∧
      fs.compressedExtent addr d.diskNumBytes d.compression d.ramBytes s =
        done (fs.decompressed s₀ addr d) { s with dev := dev, lastExtent := last } := by
  unfold compressedExtent
  rw [bind_of_ok (get_run s)]
  cases hc : cachedExtent addr s with
  | some data =>
    refine ⟨s.dev, s.lastExtent, hs, ?_⟩
    rw [hs addr data ?_ d hd]; · rfl
    unfold cachedExtent at hc
    split at hc
    · rename_i a data' hl
      split_ifs at hc with ha
      rw [hl, ha, Option.some.inj hc]
    · cases hc
  | none =>
    obtain ⟨dev, hr⟩ := run_of_alike (fun R hR => decompressExtent_alike hR hfs addr d.diskNumBytes
      d.compression d.ramBytes) s s₀
    dsimp only
    rw [bind_run, hr, ← decompressed]
    cases hv : fs.decompressed s₀ addr d with
    | error e => exact ⟨dev, s.lastExtent, hs, rfl⟩
    | ok plain =>
      refine ⟨dev, some (addr, plain), fun addr' data hl d' hd' => ?_, rfl⟩
      simp only [Option.some.injEq, Prod.mk.injEq] at hl
      obtain ⟨rfl, rfl⟩ := hl
      rw [hD _ _ _ hd' hd, hv]

include hfs hnames in
theorem compressedExtent_both {addr : Nat} {d : Description} (hd : fs.Describes s₀ L addr d) :
    Alike (fs.Both s₀ L) (fs.compressedExtent addr d.diskNumBytes d.compression d.ramBytes) := by
  refine alike_both (r := fs.decompressed s₀ addr d) fun s hs => ?_
  obtain ⟨dev, last, hl, hr⟩ := compressedExtent_run hfs hnames hd hs.last
  rw [hr, value_done, state_done]
  exact ⟨rfl, ⟨hs.nodes.right, hs.nodes.kept, hs.nodes.nodup⟩, hs.roots, hl⟩

include hfs hboot hnames h₀ in
theorem readsAlike_both (hc₀ : fs.Coherent s₀ L s₀) {loc : Loc} (hloc : L loc) :
    ReadsAlike fs (fs.Both s₀ L) loc where
  logical := readLogical_alike devFree_both hfs
  compressed exts hexts e he a n off hk ha hcomp := by
    obtain ⟨s, t, hst, hv⟩ := hexts
    have hsame := (extents_alike (readNode_both hfs hboot) (tree_both hfs hboot h₀) loc t s₀
      ⟨hst.2, hc₀⟩).1
    exact compressedExtent_both (d := ⟨n, e.compression, e.ramBytes⟩) hfs hnames
      ⟨loc, hloc, exts, hsame ▸ hv, e, he, off, hk, ha, hcomp, rfl, rfl⟩

end keeping

end Fs

/-! ## Operations -/

/-- An operation on an opened filesystem. -/
inductive Op
  | inode (loc : Loc)
  | lookup (dir : Loc) (name : Bytes)
  | readdir (dir : Loc)
  | resolve (path : Text)
  | extents (loc : Loc)
  | readRange (loc : Loc) (start stop : Nat)
  | subvols
  deriving DecidableEq, Repr

/-- What an operation returns, with the pieces a range read emits. -/
inductive Answer
  | inode (i : Inode)
  | entry (e : Option Entry)
  | entries (es : List Entry)
  | loc (l : Loc)
  | extents (es : List Extent)
  | pieces (ps : List Piece)
  | subvols (vs : List Subvol)
  deriving DecidableEq, Repr

namespace Op

/-- A sink that keeps the pieces. -/
def keep : Sink (List Piece) := fun p => modify (· ++ [p])

variable (fs : Fs β)

def run : Op → FsM β Answer
  | .inode loc => do return .inode (← fs.inode loc)
  | .lookup dir name => do return .entry (← fs.lookup dir name)
  | .readdir dir => do return .entries (← fs.readdir dir)
  | .resolve path => do return .loc (← fs.resolve path)
  | .extents loc => do return .extents (← fs.extents loc)
  | .readRange loc start stop => do
    let ((), ps) ← withLocal [] (fs.readRange loc start stop keep)
    return .pieces ps
  | .subvols => do return .subvols (← fs.subvols)

/-- The state after the operations, whatever they came to. -/
def after (ops : List Op) (s : FsState β) : FsState β :=
  ops.foldl (fun s op => Result.state (op.run fs s)) s

/-- The files whose data the operation may read: the one it is told to, or for a
path, a symlink. -/
def Reads (s₀ : FsState β) : Op → Loc → Prop
  | .readRange loc _ _, l => l = loc
  | .resolve _, l => ∃ i, Result.value (fs.inode l s₀) = .ok i ∧ i.isSymlink
  | _, _ => False

variable {fs} {s₀ : FsState β} {L : Loc → Prop} (hfs : fs.Honest)
  (hboot : fs.Rereads s₀ ∨ fs.Few s₀) (hnames : fs.NamesAlike s₀ L) (hc₀ : fs.Coherent s₀ L s₀)

include hfs hboot hnames hc₀

/-- An operation ends the same way from all coherent states, and keeps them
coherent. -/
theorem run_alike {op : Op} (hop : ∀ loc, op.Reads fs s₀ loc → L loc) :
    Alike (fs.Both s₀ L) (op.run fs) := by
  have hnode := Fs.readNode_both (L := L) hfs hboot
  have htree := Fs.tree_both (L := L) hfs hboot hc₀.nodes
  cases op with
  | inode loc => exact (Fs.inode_alike hnode htree loc).bind fun _ => .pure _
  | lookup dir name => exact (Fs.lookup_alike hnode htree dir name).bind fun _ => .pure _
  | readdir dir => exact (Fs.readdir_alike hnode htree dir).bind fun _ => .pure _
  | extents loc => exact (Fs.extents_alike hnode htree loc).bind fun _ => .pure _
  | subvols => exact (Fs.subvols_alike hnode htree).bind fun _ => .pure _
  | readRange loc start stop =>
    have hread := Fs.readsAlike_both hfs hboot hnames hc₀.nodes hc₀ (hop loc rfl)
    exact (Alike.withLocal _ (Fs.readRange_alike hnode htree hread start stop keep)).bind fun _ =>
      .pure _
  | resolve path =>
    refine (Fs.resolve_alike hnode htree (fun loc i hi hs => ?_) path).bind fun _ => .pure _
    refine Fs.readsAlike_both hfs hboot hnames hc₀.nodes hc₀ (hop loc ?_)
    obtain ⟨s, t, hst, hv⟩ := hi
    have hsame := (Fs.inode_alike hnode htree loc t s₀ ⟨hst.2, hc₀⟩).1
    exact ⟨i, hsame ▸ hv, hs⟩

/-- Coherence lasts over any run of operations. -/
theorem coherent_after : ∀ (ops : List Op) {s : FsState β}, fs.Coherent s₀ L s →
    (∀ op ∈ ops, ∀ loc, op.Reads fs s₀ loc → L loc) → fs.Coherent s₀ L (after fs ops s)
  | [], _, hs, _ => hs
  | op :: ops, s, hs, hops => by
    refine coherent_after ops ?_ fun op' h' => hops op' (List.mem_cons_of_mem _ h')
    exact (run_alike hfs hboot hnames hc₀ (hops op List.mem_cons_self) s s ⟨hs, hs⟩).2.1

end Op

/-! ## Two files that name one extent -/

namespace Image

theorem steadyOpener (s : Spans) : SteadyOpener (opener s) where
  same _ _ _ := rfl
  holds _ _ B h := by
    cases h
    exact ⟨s.content SIZE (by decide), s.holds_backing SIZE (by decide)⟩

/-- An image of two files, whose one extent item each names the same compressed
byte. The second declares `ramBytes`. -/
def twoNames (ramBytes : Nat) : Spans :=
  image [(⟨ROOT_DIR, INODE_ITEM_KEY, 0⟩, inodeItem 0 0o40755),
    (⟨257, INODE_ITEM_KEY, 0⟩, inodeItem 1 0o100644),
    (⟨257, EXTENT_DATA_KEY, 0⟩, regularExtent 1 1 DATA storedByte.length 0 1),
    (⟨258, INODE_ITEM_KEY, 0⟩, inodeItem ramBytes 0o100644),
    (⟨258, EXTENT_DATA_KEY, 0⟩, regularExtent ramBytes 1 DATA storedByte.length 0 ramBytes)]
    storedByte

def openImage (s : Spans) : FsM Unit (Fs Unit) :=
  Fs.open ⟨false⟩ crates (opener s) ["image"]

/-- The whole of a file. -/
def readAll (ino : Nat) : Op := .readRange ⟨FS_TREE_OBJECTID, ino⟩ 0 U64_MAX

end Image

/-- On one opened filesystem, after any operations, an operation returns what it
returns alone on the filesystem opened afresh: where no two compressed extents
of the files read name one address and describe it differently, and the blocks
cached while opening read the same under the full chunk map, or fit in the cache
with all others. -/
theorem caches_invisible {p : Platform} {X : Crates} {opener : Opener β} (hop : SteadyOpener opener)
    {paths : List String} {dev dev' : β} {fs fs' : Fs β} {s₀ s₀' : FsState β}
    (hopen : Fs.open p X opener paths (.empty dev) = .ok fs s₀)
    (hopen' : Fs.open p X opener paths (.empty dev') = .ok fs' s₀')
    (hboot : fs.Rereads s₀ ∨ fs.Few s₀) (ops : List Op) (op : Op)
    (hnames : fs.NamesAlike s₀ fun loc => ∃ o ∈ ops ++ [op], o.Reads fs s₀ loc) :
    Result.value (op.run fs (Op.after fs ops s₀)) = Result.value (op.run fs' s₀') := by
  have hfs := Fs.honest_of_open hop hopen
  have hfresh : Same Fresh (.empty dev : FsState β) (.empty dev') :=
    ⟨rfl, rfl, rfl, List.nodup_nil, rfl, rfl⟩
  obtain ⟨hv, hs⟩ := Fs.open_alike hop paths _ _ hfresh
  rw [hopen, hopen'] at hv hs
  obtain rfl : fs = fs' := Except.ok.inj hv
  have hs₀ : Same Fresh s₀ s₀ := ⟨rfl, rfl, rfl, hs.holds⟩
  have hs₀' : Same Fresh s₀' s₀ := ⟨hs.nodes.symm, hs.roots.symm, hs.last.symm,
    hs.nodes ▸ hs.holds.nodup, hs.roots ▸ hs.holds.roots, hs.last ▸ hs.holds.last⟩
  have hc₀ := Fs.Coherent.of_fresh (L := fun loc => ∃ o ∈ ops ++ [op], o.Reads fs s₀ loc) hfs hs₀
  have hafter := Op.coherent_after hfs hboot hnames hc₀ ops hc₀ fun o ho loc hl =>
    ⟨o, List.mem_append_left _ ho, hl⟩
  exact (Op.run_alike hfs hboot hnames hc₀ (fun loc hl => ⟨op, by simp, hl⟩) _ _
    ⟨hafter, Fs.Coherent.of_fresh hfs hs₀'⟩).1

open Image in
set_option maxRecDepth 10000 in
/-- Two files that share an extent read the same in either order. -/
theorem caches_invisible_twoNames : ∃ fs s₀, openImage (twoNames 1) (.empty ()) = .ok fs s₀ ∧
    Result.value ((readAll 258).run fs (Op.after fs [readAll 257] s₀)) =
      Result.value ((readAll 258).run fs s₀) := by
  have h : Result.passes (fun (fs : Fs Unit) s₀ =>
      decide ((∀ x ∈ s₀.nodes, Result.value (fs.fetchNode x.1 s₀) = .ok x.2) ∧
        ∀ ino ∈ [257, 258], Result.value (fs.extents ⟨FS_TREE_OBJECTID, ino⟩ s₀) =
          .ok [⟨0, 1, 1, 1, .regular DATA storedByte.length 0⟩]))
      (openImage (twoNames 1) (.empty ())) = true := by
    decide +kernel
  obtain ⟨fs, s₀, ho, hd⟩ := Result.exists_of_passes h
  obtain ⟨hnodes, hexts⟩ := of_decide_eq_true hd
  refine ⟨fs, s₀, ho, caches_invisible (steadyOpener _) ho ho
    (.inl fun p n hp => hnodes _ (mem_of_lookup hp)) _ _ ?_⟩
  have hone {addr : Nat} {d : Description}
      (hd : fs.Describes s₀ (fun loc => ∃ o ∈ [readAll 257] ++ [readAll 258], o.Reads fs s₀ loc)
        addr d) : d = ⟨storedByte.length, 1, 1⟩ := by
    obtain ⟨loc, ⟨o, ho, hl⟩, exts, hv, e, he, off, hk, -, -, hc, hr⟩ := hd
    have hloc : ∃ ino ∈ [257, 258], loc = ⟨FS_TREE_OBJECTID, ino⟩ := by
      rcases List.mem_append.mp ho with ho | ho <;> rw [List.mem_singleton] at ho <;> subst ho
      · exact ⟨257, by decide, hl⟩
      · exact ⟨258, by decide, hl⟩
    obtain ⟨ino, hi, rfl⟩ := hloc
    rw [hexts ino hi] at hv
    cases hv
    rw [List.mem_singleton] at he
    subst he
    obtain ⟨n, c, r⟩ := d
    simp only [ExtentKind.regular.injEq] at hk hc hr
    rw [← hk.2.1, hc, hr]
  exact fun addr d d' h h' => (hone h).trans (hone h').symm

open Image in
/-- The second file reads as two bytes, padding included, unless the first was
read before: then its one byte is in the cache. -/
theorem caches_visible_twoNames : SteadyOpener (opener (twoNames 2)) ∧
    ∃ fs s₀, openImage (twoNames 2) (.empty ()) = .ok fs s₀ ∧
      Result.value ((readAll 258).run fs (Op.after fs [readAll 257] s₀)) ≠
        Result.value ((readAll 258).run fs s₀) := by
  refine ⟨steadyOpener _, ?_⟩
  have h : Result.passes (fun fs s₀ =>
      decide (Result.value ((readAll 258).run fs (Op.after fs [readAll 257] s₀)) ≠
        Result.value ((readAll 258).run fs s₀)))
      (openImage (twoNames 2) (.empty ())) = true := by
    decide +kernel
  obtain ⟨fs, s₀, ho, hd⟩ := Result.exists_of_passes h
  exact ⟨fs, s₀, ho, of_decide_eq_true hd⟩

end BtrfsPeek
